import WasmHost.Registry.Basic
import WasmHost.Store

/-!
# WasmHost.Spectest

The module that test scripts import from: functions that print their arguments, a table, a memory
and four globals. Every registration makes fresh objects.
-/

namespace WasmHost
namespace Spectest

/-- The name under which test scripts look for the module. -/
def moduleName : String := "spectest"

def printFields : List String :=
  ["print", "print_i32", "print_i64", "print_f32", "print_f64", "print_i32_f32", "print_f64_f64"]

def tableLength : Nat := 10

def tableMax : Nat := 20

def memoryPages : Nat := 1

def memoryMax : Nat := 2

/-- What the globals hold, each in its type. -/
def globalNumber : Nat := 666

def globalValue : ValType → Value
  | .i32 => .i32 (BitVec.ofNat 32 globalNumber)
  | .i64 => .i64 (BitVec.ofNat 64 globalNumber)
  | .f32 => .f32 (Binary.ofInt 8 23 globalNumber)
  | .f64 => .f64 (Binary.ofInt 11 52 globalNumber)

def addPrint (s : Store) (module field : String) : Store × String × Extern :=
  let (s, a) := s.addFunction ⟨module ++ "." ++ field, .print field⟩
  (s, field, .function a)

def addTable (s : Store) : Except LinkError (Store × String × Extern) :=
  (Table.allocate tableLength tableMax).map fun t =>
    let (s, a) := s.addTable t
    (s, "table", .table a)

def addMemory (s : Store) : Except LinkError (Store × String × Extern) :=
  (Memory.allocate memoryPages memoryMax).map fun m =>
    let (s, a) := s.addMemory m
    (s, "memory", .memory a)

def addGlobal (s : Store) (t : ValType) : Store × String × Extern :=
  let (s, a) := s.addGlobal (globalValue t)
  (s, "global_" ++ t.name, .global a)

/-- One maker for each export, in the order in which they are defined. A maker adds a new object to
the store and tells its field, or fails as the allocation of the object does. -/
def makers (module : String) : List (Store → Except LinkError (Store × String × Extern)) :=
  printFields.map (fun field s => .ok (addPrint s module field)) ++ [addTable, addMemory]
    ++ ValType.all.map (fun t s => .ok (addGlobal s t))

/-- A maker that fails ends the registration; what was defined before it stays. -/
def defineEach (module : String) :
    List (Store → Except LinkError (Store × String × Extern)) → Store → Registry →
      Outcome (Store × Registry) LinkError Unit
  | [], s, r => .pure (s, r) ()
  | make :: rest, s, r =>
    match make s with
    | .error e => .fail (s, r) e
    | .ok (s, field, item) =>
      let (r, event) := r.define ⟨module, field⟩ item
      let o := defineEach module rest s r
      ⟨o.state, o.result, event :: o.events⟩

def register (s : Store) (r : Registry) (module : String) :
    Outcome (Store × Registry) LinkError Unit :=
  (defineEach module (makers module) s r).andThen fun state _ =>
    ⟨state, .ok (), [.spectestRegistered module]⟩

end Spectest
end WasmHost
