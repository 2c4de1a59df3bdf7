import WasmHost.Proofs.Table.Contents

/-!
# WasmHost.Proofs.Table.Segment

Element segments are written whole or not at all. The range is checked as a whole before anything
is written, the slots are then written one after the other, and the index that is reported is taken
from the end of the range: three readings of one range, which agree in every table that exists.

* `setEach_eq`: elements that are set one by one leave what a segment leaves.
* `placed_of_fits`, `overhangs_of_lt`: the segments that fit, and those that do not.
* `segment_is_written_whole_or_not_at_all`: when a segment is written, and what is reported if not.
-/

namespace WasmHost
namespace Table

/-- Elements set one by one, each in the slot behind that of the one before. The first that traps
ends it, and what was set before it stays set. -/
def setEach (t : Table) (index : BitVec 32) : List Element → Except Trap Table
  | [] => .ok t
  | e :: r =>
    match t.set index (some e) with
    | .ok t' => t'.setEach (index + 1) r
    | .error trap => .error trap

/-- A segment that is written as its elements would be one by one, and in no other slots. -/
structure Placed (t : Table) (offset : BitVec 32) (es : List Element) : Prop where
  result : (t.perform (.init offset es)).result = .ok .done
  each : t.setEach offset es = .ok (t.perform (.init offset es)).state
  inside : ∀ i (h : i < es.length),
    (t.perform (.init offset es)).state.slots[offset.toNat + i]? = some (some es[i])
  outside : ∀ i, i < offset.toNat ∨ offset.toNat + es.length ≤ i →
    (t.perform (.init offset es)).state.slots[i]? = t.slots[i]?

/-- A segment of which nothing is written. Its last index is reported, or the greatest index that
there is; so the range does not end before index zero, and the index reported is not in the table.
-/
structure Overhangs (t : Table) (offset : BitVec 32) (es : List Element) : Prop where
  state : (t.perform (.init offset es)).state = t
  nonempty : 1 ≤ offset.toNat + es.length
  result : ∃ index, index = Nat.min (offset.toNat + es.length - 1) (2 ^ 32 - 1) ∧
    t.size ≤ index ∧
    (t.perform (.init offset es)).result = .error (.range (.tableIndex index t.size))

section

variable {t : Table} {offset : BitVec 32} {es : List Element}

theorem setEach_cons (h : offset.toNat < t.size) (e : Element) :
    t.setEach offset (e :: es) =
      ({ t with slots := t.slots.setIfInBounds offset.toNat (some e) } : Table).setEach
        (offset + 1) es := by
  rw [setEach, set_eq_ok_iff.mpr ⟨h, rfl⟩]

/-- In a table whose size is a word no index behind a slot of the segment wraps to zero. -/
theorem setEach_eq (hsize : t.size < 2 ^ 32) (h : offset.toNat + es.length ≤ t.size) :
    t.setEach offset es = .ok { t with slots := fillSlots t.slots offset.toNat es } := by
  induction es generalizing t offset with
  | nil => rfl
  | cons e r ih =>
    rw [List.length_cons] at h
    have hnext : (offset + 1).toNat = offset.toNat + 1 :=
      BitVec.toNat_add_of_lt (show offset.toNat + 1 < 2 ^ 32 by omega)
    have hkept : ({ t with slots := t.slots.setIfInBounds offset.toNat (some e) } : Table).size =
        t.size := Array.size_setIfInBounds
    rw [setEach_cons (by omega), ih (by rwa [hkept]) (by rw [hkept, hnext]; omega), hnext]
    rfl

theorem placed_of_fits (hsize : t.size < 2 ^ 32) (h : offset.toNat + es.length ≤ t.size) :
    t.Placed offset es := by
  have hperform := written_init t offset es
  rw [if_pos h] at hperform
  refine ⟨?_, ?_, ?_, ?_⟩
  · rw [perform, hperform]
  · rw [perform, hperform]
    exact setEach_eq hsize h
  · intro i hi
    rw [perform, hperform, getElem?_fillSlots _ _ _ h, if_pos (by omega),
      Nat.add_sub_cancel_left, List.getElem?_eq_getElem hi]
  · intro i hi
    rw [perform, hperform, getElem?_fillSlots _ _ _ h, if_neg (by omega)]

/-- The range ends behind the table, so it ends behind index zero; and the greatest index that there
is lies behind every table. -/
theorem overhangs_of_lt (hsize : t.size < 2 ^ 32) (h : t.size < offset.toNat + es.length) :
    t.Overhangs offset es := by
  have hperform := written_init t offset es
  rw [if_neg (Nat.not_le.mpr h)] at hperform
  refine ⟨by rw [perform, hperform]; rfl, by omega, _, rfl, ?_, by rw [perform, hperform]; rfl⟩
  exact Nat.le_min.mpr ⟨by omega, by omega⟩

end

/-- In every table that exists, for every offset of 32 bits and every list of elements. The segment
is written exactly if, among the natural numbers, it ends within the table: so an empty one may
begin at the end and not behind it. Then it is as if its elements were set one by one. Otherwise no
slot is changed, and the index reported is the last one of the segment or, if that has too many
bits, the greatest one; it is never in the table. -/
theorem segment_is_written_whole_or_not_at_all {t : Table} (ht : Reachable t)
    (offset : BitVec 32) (es : List Element) :
    (t.succeeds (.init offset es) ↔ offset.toNat + es.length ≤ t.size) ∧
    (t.succeeds (.init offset []) ↔ offset.toNat ≤ t.size) ∧
    (offset.toNat + es.length ≤ t.size → t.Placed offset es) ∧
    (t.size < offset.toNat + es.length → t.Overhangs offset es) := by
  obtain ⟨max, hsized⟩ := sized_of_reachable ht
  have hsize : t.size < 2 ^ 32 := Nat.lt_trans hsized.size_lt (by decide)
  exact ⟨succeeds_init_iff t offset es, succeeds_init_iff t offset [], placed_of_fits hsize,
    overhangs_of_lt hsize⟩

/-- Three slots and segments of two elements: one that fits, one of which only the first element
would fit, and one at the greatest offset, whose end has 33 bits. An empty segment behind the end
is refused too. -/
theorem segments_of_three_slots :
    Reachable (empty 3 3) ∧ (empty 3 3).Placed 1 [element 1, element 2] ∧
      (empty 3 3).Overhangs 2 [element 1, element 2] ∧
      (empty 3 3).Overhangs 4294967295 [element 1, element 2] ∧
      (empty 3 3).Overhangs 4 [] := by
  have hmade : Reachable (empty 3 3) := .allocate (show allocate 3 3 = .ok (empty 3 3) from rfl)
  have hpair := fun offset =>
    segment_is_written_whole_or_not_at_all hmade offset [element 1, element 2]
  refine ⟨hmade, (hpair 1).2.2.1 (by decide), (hpair 2).2.2.2 (by decide),
    (hpair 4294967295).2.2.2 (by decide), ?_⟩
  exact (segment_is_written_whole_or_not_at_all hmade 4 []).2.2.2 (by decide)

end Table
end WasmHost
