import WasmHost.Table.Basic

/-!
# WasmHost.Table.Op

Operations on one table as data, so that whole runs of them can be spoken about.
-/

namespace WasmHost
namespace Table

inductive Op where
  | get (index : BitVec 32)
  | set (index : BitVec 32) (e : Element)
  | clear (index : BitVec 32)
  | init (offset : BitVec 32) (elements : List Element)
  | grow (delta : BitVec 32) (slot : Option Element)
  | callee (signature : SignatureId) (index : BitVec 32)
  deriving DecidableEq

inductive Answer where
  | done
  | slot (slot : Option Element)
  | grown (result : Int)
  | function (f : Addr .function)
  deriving DecidableEq

/-- A write that traps leaves the table as it was. -/
def written (t : Table) : Except Trap Table → Outcome Table Trap Answer
  | .ok t' => ⟨t', .ok .done, []⟩
  | .error trap => ⟨t, .error trap, []⟩

def perform (t : Table) : Op → Outcome Table Trap Answer
  | .get index => ⟨t, (t.get index).map .slot, []⟩
  | .set index e => t.written (t.set index (some e))
  | .clear index => t.written (t.set index none)
  | .init offset elements => t.written (t.init offset elements)
  | .grow delta slot =>
    let (t', result, event) := t.grow delta slot
    ⟨t', .ok (.grown result), [event]⟩
  | .callee signature index => ⟨t, (t.callee signature index).map .function, []⟩

/-- The table after a run of operations, failed ones among them. -/
def run (t : Table) (ops : List Op) : Table := ops.foldl (fun t op => (t.perform op).state) t

end Table
end WasmHost
