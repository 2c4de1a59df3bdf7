import WasmHost.LinkError
import WasmHost.Tally

/-!
# WasmHost.Script.Reply

What a command answers, and the ways in which it fails.
-/

namespace WasmHost
namespace Script

inductive Failure where
  | trap (t : Trap)
  | link (e : LinkError)
  /-- A list of types does not have the length that its counts say. -/
  | arity
  /-- A name stands for nothing. -/
  | unknownName (name : String)
  deriving DecidableEq

def Failure.message : Failure → String
  | .trap t => t.message
  | .link e => e.message
  | .arity => "signature type list does not match its arity"
  | .unknownName name => name

structure MemoryInfo where
  size : Nat
  maxPages : Nat
  byteLen : Nat
  deriving DecidableEq

structure TableInfo where
  size : Nat
  maxLength : Nat
  deriving DecidableEq

/-- A slot that is not empty, with the name of its function. -/
structure SlotInfo where
  signature : SignatureId
  function : String
  deriving DecidableEq

inductive Reply where
  | done
  | flag (b : Bool)
  | count (n : Nat)
  | name (s : String)
  | kind (k : ExternKind)
  | value (v : Value)
  | values (vs : List Value)
  /-- A value whose type the command tells. -/
  | payload (v : Value)
  | bytes (b : ByteArray)
  | runs (runs : List (Nat × ByteArray))
  | memory (info : MemoryInfo)
  | memoryGrown (result : Int) (info : MemoryInfo)
  | table (info : TableInfo)
  | tableGrown (result : Int) (info : TableInfo)
  | slot (slot : Option SlotInfo)
  | slots (slots : List (Nat × SlotInfo))
  | function (name description : String)
  | functionNamed (name : String)
  | global (v : Value)
  | signature (id : SignatureId)
  | interner (size : Nat)
  | tally (holds? : Option Bool) (t : Tally)

end Script
end WasmHost
