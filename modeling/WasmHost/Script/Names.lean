import WasmHost.Registry.Basic
import WasmHost.Script.Command
import WasmHost.Script.Reply
import WasmHost.Table.Basic

/-!
# WasmHost.Script.Names

What the names of a script stand for. A name that stands for nothing fails the command that uses
it, and the failure tells the name.
-/

namespace WasmHost
namespace Script

/-- The objects that names stand for. -/
structure Names where
  memories : Directory String (Addr .memory)
  tables : Directory String (Addr .table)
  functions : Directory String (Addr .function)
  globals : Directory String (Addr .global)
  signatures : Directory String SignatureId

namespace Names

def empty : Names := ⟨.empty, .empty, .empty, .empty, .empty⟩

/-- Constants are values and have no address, so no name stands for one. -/
def find? (n : Names) : (k : ExternKind) → Name k → Option (Addr k)
  | .memory, name => n.memories.find? name
  | .table, name => n.tables.find? name
  | .function, name => n.functions.find? name
  | .global, name => n.globals.find? name
  | .constant, _ => none

def save (n : Names) : (k : ExternKind) → Name k → Addr k → Names
  | .memory, name, a => { n with memories := n.memories.insert name a }
  | .table, name, a => { n with tables := n.tables.insert name a }
  | .function, name, a => { n with functions := n.functions.insert name a }
  | .global, name, a => { n with globals := n.globals.insert name a }
  | .constant, _, _ => n

def saveExtern (n : Names) (name : String) : Extern → Names
  | .memory a => n.save .memory name a
  | .table a => n.save .table name a
  | .function a => n.save .function name a
  | .global a => n.save .global name a
  | .constant _ => n

def lookup (n : Names) (k : ExternKind) (name : Name k) : Except Failure (Addr k) :=
  match n.find? k name with
  | some a => .ok a
  | none => .error (.unknownName name)

def lookupSignature (n : Names) : SignatureRef → Except Failure SignatureId
  | .number id => .ok id
  | .saved name =>
    match n.signatures.find? name with
    | some id => .ok id
    | none => .error (.unknownName name)

def lookupElement (n : Names) (e : ElementRef) : Except Failure Element := do
  let signature ← n.lookupSignature e.signature
  let function ← n.lookup .function e.function
  return ⟨signature, function⟩

def lookupElements (n : Names) : List ElementRef → Except Failure (List Element)
  | [] => .ok []
  | e :: r => do
    let first ← n.lookupElement e
    let rest ← n.lookupElements r
    return first :: rest

def lookupSlot (n : Names) : Option ElementRef → Except Failure (Option Element)
  | none => .ok none
  | some e => (n.lookupElement e).map some

def lookupFunctions (n : Names) : List (Name .function) → Except Failure (List (Addr .function))
  | [] => .ok []
  | name :: r => do
    let first ← n.lookup .function name
    let rest ← n.lookupFunctions r
    return first :: rest

def lookupExtern (n : Names) : ExternRef → Except Failure Extern
  | .named .memory name => (n.lookup .memory name).map .memory
  | .named .table name => (n.lookup .table name).map .table
  | .named .function name => (n.lookup .function name).map .function
  | .named .global name => (n.lookup .global name).map .global
  | .named .constant name => .error (.unknownName name)
  | .constant v => .ok (.constant v)

def lookupBody (n : Names) : Body Name SignatureRef → Except Failure (Body Addr SignatureId)
  | .const values => .ok (.const values)
  | .trap t => .ok (.trap t)
  | .echo => .ok .echo
  | .numeric op => .ok (.numeric op)
  | .load memory k => (n.lookup .memory memory).map (.load · k)
  | .store memory k => (n.lookup .memory memory).map (.store · k)
  | .memoryGrow memory => (n.lookup .memory memory).map .memoryGrow
  | .bump global => (n.lookup .global global).map .bump
  | .callIndirect table signature => do
    let table ← n.lookup .table table
    let signature ← n.lookupSignature signature
    return .callIndirect table signature
  | .seq functions => (n.lookupFunctions functions).map .seq
  | .print field => .ok (.print field)

end Names

end Script
end WasmHost
