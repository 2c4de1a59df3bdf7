import WasmHost.Addr
import WasmHost.Directory
import WasmHost.Outcome

/-!
# WasmHost.Registry.Basic

What every module exports, under its module and field names. A definition replaces an earlier one
under the same key; items that were looked up before stay what they were.
-/

namespace WasmHost

/-- An exported item: the address of a shared object, or the value of a constant. -/
inductive Extern where
  | function (a : Addr .function)
  | table (a : Addr .table)
  | memory (a : Addr .memory)
  | global (a : Addr .global)
  | constant (v : Value)
  deriving DecidableEq

def Extern.kind : Extern → ExternKind
  | .function _ => .function
  | .table _ => .table
  | .memory _ => .memory
  | .global _ => .global
  | .constant _ => .constant

/-- Module and field are compared one by one, never as one joined text. -/
structure ExportKey where
  module : String
  field : String
  deriving DecidableEq

abbrev Registry := Directory ExportKey Extern

namespace Registry

def define (r : Registry) (key : ExportKey) (item : Extern) : Registry × Event :=
  (r.insert key item, .exported key.module key.field item.kind)

/-- The item under a key, of the kind asked for if one is. A look-up that finds an item is
reported, also when the item is then of another kind. -/
def resolve (r : Registry) (key : ExportKey) (kind? : Option ExternKind) :
    Except LinkError Extern × List Event :=
  match r.find? key with
  | none => (.error (.unknownImport key.module key.field), [])
  | some item =>
    let event := Event.imported key.module key.field item.kind
    match kind? with
    | none => (.ok item, [event])
    | some kind =>
      if item.kind = kind then
        (.ok item, [event])
      else
        (.error (.kindMismatch key.module key.field kind item.kind), [event])

def fieldsOf (r : Registry) (module : String) : List (String × Extern) :=
  r.entries.filterMap fun (key, item) =>
    if key.module = module then some (key.field, item) else none

def defineAll (r : Registry) (module : String) (fields : List (String × Extern)) : Registry :=
  fields.foldl (fun r (field, item) => r.insert ⟨module, field⟩ item) r

/-- Every field that `source` has at this time becomes one of `target` too. -/
def overlay (r : Registry) (target source : String) : Registry × Nat × Event :=
  let fields := r.fieldsOf source
  (r.defineAll target fields, fields.length, .aliased target source fields.length)

end Registry
end WasmHost
