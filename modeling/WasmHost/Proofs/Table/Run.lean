import WasmHost.Table.Lemmas
import WasmHost.Table.Op

/-!
# WasmHost.Proofs.Table.Run

Where the elements of a table come from. Whatever a run did, a slot that is not empty holds an
element as one of the operations stored it: signature and function stay together.

* `element_of_perform`: one step.
* `element_of_run`: a run that starts on an empty table.
-/

namespace WasmHost
namespace Table

/-- The elements that an operation stores if it succeeds. -/
def Op.elements : Op → List Element
  | .set _ e => [e]
  | .init _ es => es
  | .grow _ slot => slot.toList
  | .get _ | .clear _ | .callee .. => []

theorem element_of_set {t t' : Table} {index : BitVec 32} {slot : Option Element}
    (h : t.set index slot = .ok t') {j : Nat} {e : Element} (he : t'.slots[j]? = some (some e)) :
    t.slots[j]? = some (some e) ∨ slot = some e := by
  obtain ⟨_, rfl⟩ := set_eq_ok_iff.mp h
  rw [Array.getElem?_setIfInBounds] at he
  split at he
  · split at he
    · exact .inr (Option.some.inj he)
    · cases he
  · exact .inl he

theorem element_of_init {t t' : Table} {offset : BitVec 32} {es : List Element}
    (h : t.init offset es = .ok t') {j : Nat} {e : Element} (he : t'.slots[j]? = some (some e)) :
    t.slots[j]? = some (some e) ∨ e ∈ es := by
  obtain ⟨hfits, rfl⟩ := init_eq_ok_iff.mp h
  rw [getElem?_fillSlots _ _ _ hfits] at he
  split at he
  · rename_i hj
    cases hes : es[j - offset.toNat]? with
    | none => rw [hes] at he; cases he
    | some e' =>
      rw [hes] at he
      cases he
      exact .inr (List.mem_of_getElem? hes)
  · exact .inl he

theorem element_of_grow {t : Table} {delta : BitVec 32} {slot : Option Element} {j : Nat}
    {e : Element} (he : (t.grow delta slot).1.slots[j]? = some (some e)) :
    t.slots[j]? = some (some e) ∨ slot = some e := by
  rcases grow_cases t delta slot with ⟨hstate, _⟩ | ⟨_, _, hstate⟩
  · rw [hstate] at he
    exact .inl he
  · rw [hstate, getElem?_extendTo] at he
    split at he
    · exact .inl he
    · split at he
      · exact .inr (Option.some.inj he)
      · cases he

/-- A write that traps leaves every element where it was. -/
theorem element_of_written {t : Table} {r : Except Trap Table} {j : Nat} {e : Element}
    {stored : Prop} (hok : ∀ t', r = .ok t' → t'.slots[j]? = some (some e) →
      t.slots[j]? = some (some e) ∨ stored)
    (he : (t.written r).state.slots[j]? = some (some e)) :
    t.slots[j]? = some (some e) ∨ stored := by
  cases r with
  | error trap => exact .inl he
  | ok t' => exact hok t' rfl he

theorem element_of_perform {t : Table} {op : Op} {j : Nat} {e : Element}
    (he : (t.perform op).state.slots[j]? = some (some e)) :
    t.slots[j]? = some (some e) ∨ e ∈ op.elements := by
  cases op with
  | get index => exact .inl he
  | callee signature index => exact .inl he
  | set index e' =>
    refine element_of_written (fun t' h he => ?_) he
    rcases element_of_set h he with he | he
    · exact .inl he
    · exact .inr (by simp [Op.elements, Option.some.inj he])
  | clear index =>
    refine element_of_written (fun t' h he => ?_) he
    rcases element_of_set h he with he | he
    · exact .inl he
    · cases he
  | init offset es => exact element_of_written (fun t' h he => element_of_init h he) he
  | grow delta slot =>
    rcases element_of_grow he with he | he
    · exact .inl he
    · exact .inr (by simp [Op.elements, he])

theorem element_of_run {t : Table} {ops : List Op} {j : Nat} {e : Element}
    (he : (t.run ops).slots[j]? = some (some e)) :
    t.slots[j]? = some (some e) ∨ ∃ op ∈ ops, e ∈ op.elements := by
  induction ops generalizing t with
  | nil => exact .inl he
  | cons op ops ih =>
    rcases ih he with he | ⟨op', hop, he⟩
    · rcases element_of_perform he with he | he
      · exact .inl he
      · exact .inr ⟨op, List.mem_cons_self, he⟩
    · exact .inr ⟨op', List.mem_cons_of_mem _ hop, he⟩

end Table
end WasmHost
