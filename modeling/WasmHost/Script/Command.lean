import WasmHost.HostFunction
import WasmHost.Interner
import WasmHost.Memory.Op
import WasmHost.Tally

/-!
# WasmHost.Script.Command

The commands of a test script. A script speaks of objects by names of its own, one set of names
for each kind of object; a name given again stands for the new object from then on.
-/

namespace WasmHost
namespace Script

/-- An object as a script speaks of it: the name under which it was made or saved. -/
abbrev Name : ExternKind → Type := fun _ => String

/-- A signature by its number, or by the name under which a registration saved it. -/
inductive SignatureRef where
  | number (id : SignatureId)
  | saved (name : String)
  deriving DecidableEq

structure ElementRef where
  signature : SignatureRef
  function : Name .function
  deriving DecidableEq

inductive ExternRef where
  | named (k : ExternKind) (name : Name k)
  | constant (v : Value)
  deriving DecidableEq

inductive MemoryCommand where
  | allocate (initial max : Nat)
  | info
  | perform (op : Memory.Op)
  | dump

inductive TableCommand where
  | allocate (length max : Nat)
  | info
  | get (index : BitVec 32)
  | set (index : BitVec 32) (e : ElementRef)
  | clear (index : BitVec 32)
  | init (offset : BitVec 32) (elements : List ElementRef)
  | grow (delta : BitVec 32) (slot : Option ElementRef)
  | callee (signature : SignatureRef) (index : BitVec 32)
  | call (signature : SignatureRef) (index : BitVec 32) (args : Args)
  | dump

inductive FunctionCommand where
  | make (name : String) (body : Body Name SignatureRef)
  | info
  | call (args : Args)

inductive GlobalCommand where
  | make (v : Value)
  | get
  | set (v : Value)
  | expect (t : ValType)

inductive SignatureCommand where
  | perform (op : Interner.Op) (save? : Option String)
  | info

inductive RegistryCommand where
  | define (module field : String) (item : ExternRef)
  | resolve (module field : String) (kind? : Option ExternKind) (save? : Option String)
  | contains (module field : String)
  | overlay (target source : String)
  | spectest (module : String)
  | copyTo (name : String)

/-- Where the result comes from that an assertion judges. -/
inductive Probe where
  | returned (v : Value)
  | trapped (t : Trap)
  | numeric (op : Numeric.Op) (args : Args)
  | call (function : Name .function) (args : Args)
  | callIndirect (table : Name .table) (signature : SignatureRef) (index : BitVec 32) (args : Args)
  | load (memory : Name .memory) (k : LoadKind) (position : BitVec 32)

inductive TallyCommand where
  | check (name : String) (a : Assertion) (probe : Probe)
  | info

inductive Command where
  | memory (name : Name .memory) (c : MemoryCommand)
  | table (name : Name .table) (c : TableCommand)
  | function (name : Name .function) (c : FunctionCommand)
  | global (name : Name .global) (c : GlobalCommand)
  | signature (interner : String) (c : SignatureCommand)
  | registry (name : String) (c : RegistryCommand)
  | tally (name : String) (c : TallyCommand)
  /-- Whether two names stand for the same object. -/
  | same (k : ExternKind) (a b : Name k)

end Script
end WasmHost
