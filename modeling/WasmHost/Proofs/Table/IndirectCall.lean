import WasmHost.Proofs.Interner.Run
import WasmHost.Proofs.Table.Run

/-!
# WasmHost.Proofs.Table.IndirectCall

Indirect calls across modules. A table compares numbers, not types. The comparison is sound because
all numbers come from one interner: it gives two types two numbers, and whatever fills a slot keeps
the number of a function with the function.

The calls on the interner and the operations on the table may come in any order, as neither looks
at the other; so `calls` is all that the interner is ever asked, before and after.

* `type_of_element`: every element of a table stands for one type.
* `callee_runs_exact_type`: an indirect call finds a function of the type it names, or none.
-/

namespace WasmHost
namespace Table

/-- The numbers that the operations store were all given by the interner. -/
def StoresIssued (calls : List Interner.Op) (ops : List Op) : Prop :=
  ∀ op ∈ ops, ∀ e ∈ op.elements, ∃ t, Interner.Issued calls t e.signature

section

variable {calls : List Interner.Op} (hcalls : (Interner.distinct calls).length < 2 ^ 32)
  {length max : Nat} {made : Table} (hmade : allocate length max = .ok made)
  {ops : List Op} (hops : StoresIssued calls ops)

include hcalls hmade hops

/-- Every element of a table stands for one type: that for which its number was given. -/
theorem type_of_element {i : BitVec 32} {e : Element} (he : (made.run ops).get i = .ok (some e)) :
    ∃ t, ∀ u, Interner.Issued calls u e.signature ↔ u = t := by
  obtain ⟨_, _, rfl⟩ := allocate_eq_ok_iff.mp hmade
  rcases element_of_run (get_eq_ok_iff.mp he) with hempty | ⟨op, hop, hel⟩
  · cases slot_of_empty hempty
  · obtain ⟨t, ht⟩ := hops op hop e hel
    refine ⟨t, fun u => ⟨?_, ?_⟩⟩
    · intro hu
      exact (Interner.issued_inj hcalls hu ht).mp rfl
    · rintro rfl
      exact ht

/-- Let `s` be the number of a function type. An indirect call that names `s` returns a function
exactly when the index is in the table and the slot holds that function under a number given for
this type and no other, whatever else its flat list of types might be cut into. Otherwise it traps,
and the first cause that applies is the one told. The table stays as it is. -/
theorem callee_runs_exact_type {params results : List ValType} {s : SignatureId}
    (hs : Interner.Issued calls ⟨params, results⟩ s) (i : BitVec 32) :
    (∀ f, (made.run ops).callee s i = .ok f ↔
      i.toNat < (made.run ops).size ∧ ∃ e, (made.run ops).get i = .ok (some e) ∧ e.function = f ∧
        ∀ u, Interner.Issued calls u e.signature ↔ u = ⟨params, results⟩) ∧
    ((made.run ops).size ≤ i.toNat → (made.run ops).callee s i =
      .error (.callIndirect (.undefinedElement i.toNat (made.run ops).size))) ∧
    ((made.run ops).get i = .ok none → (made.run ops).callee s i =
      .error (.callIndirect (.emptySlot i.toNat))) ∧
    (∀ e u, (made.run ops).get i = .ok (some e) → Interner.Issued calls u e.signature →
      u ≠ ⟨params, results⟩ → (made.run ops).callee s i =
        .error (.callIndirect (.signatureMismatch s e.signature))) ∧
    (∀ e, (made.run ops).get i = .ok (some e) →
      ∃ t, ∀ u, Interner.Issued calls u e.signature ↔ u = t) ∧
    ((made.run ops).perform (.callee s i)).state = made.run ops := by
  refine ⟨?_, callee_of_size_le, callee_of_empty, ?_, ?_, rfl⟩
  · intro f
    constructor
    · intro h
      have hget : (made.run ops).get i = .ok (some ⟨s, f⟩) :=
        get_eq_ok_iff.mpr (callee_eq_ok_iff.mp h)
      refine ⟨lt_size_of_get hget, ⟨s, f⟩, hget, rfl, fun u => ⟨?_, ?_⟩⟩
      · intro hu
        exact (Interner.issued_inj hcalls hu hs).mp rfl
      · rintro rfl
        exact hs
    · rintro ⟨_, ⟨id, g⟩, hget, rfl, htype⟩
      have hid : id = s := (Interner.issued_inj hcalls ((htype _).mpr rfl) hs).mpr rfl
      rw [callee_eq_ok_iff, ← hid]
      exact get_eq_ok_iff.mp hget
  · intro e u hget hu hne
    refine callee_of_mismatch hget (fun hid => hne ?_)
    exact (Interner.issued_inj hcalls hu hs).mp hid
  · intro e hget
    exact type_of_element hcalls hmade hops hget

end

/-- Two types with one flat list, the first of which numbers an element. -/
def cuts : List Interner.Op := [.register ⟨[.i32], []⟩, .registerFlat 0 1 [.i32]]

def storedUnderFirst : List Op := [.grow 2 none, .set 5 ⟨⟨0⟩, ⟨7⟩⟩]

theorem other_cut_traps :
    (Interner.distinct cuts).length < 2 ^ 32 ∧ allocate 4 8 = .ok (empty 4 8) ∧
      StoresIssued cuts storedUnderFirst ∧ Interner.Issued cuts ⟨[], [.i32]⟩ ⟨1⟩ ∧
      ((empty 4 8).run storedUnderFirst).callee ⟨1⟩ 5 =
        .error (.callIndirect (.signatureMismatch ⟨1⟩ ⟨0⟩)) := by
  have hcuts : (Interner.distinct cuts).length < 2 ^ 32 := by decide
  have hfirst : Interner.Issued cuts ⟨[.i32], []⟩ ⟨0⟩ :=
    ⟨[], _, [.registerFlat 0 1 [.i32]], rfl, rfl, rfl⟩
  have hsecond : Interner.Issued cuts ⟨[], [.i32]⟩ ⟨1⟩ :=
    ⟨[.register ⟨[.i32], []⟩], _, [], rfl, rfl, rfl⟩
  have hstores : StoresIssued cuts storedUnderFirst := by
    intro op hop e he
    simp only [storedUnderFirst, List.mem_cons, List.not_mem_nil, or_false] at hop
    rcases hop with rfl | rfl
    · cases he
    · cases List.mem_singleton.mp he
      exact ⟨_, hfirst⟩
  have hmade : allocate 4 8 = .ok (empty 4 8) := rfl
  obtain ⟨_, _, _, hmismatch, _⟩ := callee_runs_exact_type hcuts hmade hstores hsecond 5
  exact ⟨hcuts, hmade, hstores, hsecond, hmismatch ⟨⟨0⟩, ⟨7⟩⟩ _ rfl hfirst (by decide)⟩

end Table
end WasmHost
