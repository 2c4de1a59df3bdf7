import WasmHost.Proofs.Table.Contents

/-!
# WasmHost.Proofs.Table.Growth

The law of growth. A table may declare any maximum, and the limit of all tables holds besides, so
what counts is the lesser of the two. That limit is a number of few bits: the sizes are added on
words, but a sum that has too many bits is too large anyway, and the size that is answered is no
negative number when its word is read with a sign.

* `perform_of_exceeds`, `perform_of_not_exceeds`: growth as a whole, by one condition on the size.
* `run_grow_grow`: growth in two steps.
* `growth_appends_within_limit`: when growth is refused, what it leaves, answers and reports.
-/

namespace WasmHost
namespace Table

/-- The slots asked for are too many beside those that are there: for the maximum that the table
declares, or for the limit of all tables. -/
def Exceeds (t : Table) (delta : BitVec 32) : Prop :=
  Nat.min t.maxLength sizeLimit < t.size + delta.toNat

/-- Growth that answers -1, and leaves and says no more than that it was refused. -/
structure Refused (t : Table) (delta : BitVec 32) (slot : Option Element) : Prop where
  result : (t.perform (.grow delta slot)).result = .ok (.grown (-1))
  state : (t.perform (.grow delta slot)).state = t
  event : ∃ event : Event, (t.perform (.grow delta slot)).events = [event] ∧
    event.level = .trace ∧ event.message = "table.grow rejected" ∧
    event.fields = [("old_size", .number t.size), ("delta", .number delta.toNat),
      ("limit", .number (Nat.min t.maxLength sizeLimit))]

/-- Growth that answers the old size, leaves that many more slots behind the old ones and says so.
-/
structure Granted (t : Table) (delta : BitVec 32) (slot : Option Element) : Prop where
  result : (t.perform (.grow delta slot)).result = .ok (.grown t.size)
  slots : (t.perform (.grow delta slot)).state.slots =
    t.slots ++ Array.replicate delta.toNat slot
  maxLength : (t.perform (.grow delta slot)).state.maxLength = t.maxLength
  event : ∃ event : Event, (t.perform (.grow delta slot)).events = [event] ∧
    event.level = .debug ∧ event.message = "table grown" ∧
    event.fields = [("old_size", .number t.size), ("new_size", .number (t.size + delta.toNat))]

section

variable {t : Table} {delta : BitVec 32} {slot : Option Element}

/-! ## One growth -/

theorem exceeds_iff : t.Exceeds delta ↔ ¬ t.size + delta.toNat ≤ t.limit := Nat.not_le.symm

theorem perform_of_exceeds (h : t.Exceeds delta) (slot : Option Element) :
    t.perform (.grow delta slot) =
      ⟨t, .ok (.grown (-1)), [.tableGrowRejected t.size delta.toNat t.limit]⟩ := by
  rw [perform_grow, if_neg (exceeds_iff.mp h)]

theorem perform_of_not_exceeds (h : ¬ t.Exceeds delta) (slot : Option Element) :
    t.perform (.grow delta slot) =
      ⟨t.extendTo (t.size + delta.toNat) slot, .ok (.grown t.size),
        [.tableGrown t.size (t.size + delta.toNat)]⟩ := by
  rw [exceeds_iff, Decidable.not_not] at h
  rw [perform_grow, if_pos h]

theorem refused_of_exceeds (h : t.Exceeds delta) : t.Refused delta slot := by
  have hperform := perform_of_exceeds h slot
  refine ⟨by rw [hperform], by rw [hperform], ?_⟩
  exact ⟨_, by rw [hperform], rfl, rfl, rfl⟩

theorem granted_of_not_exceeds (h : ¬ t.Exceeds delta) : t.Granted delta slot := by
  have hperform := perform_of_not_exceeds h slot
  refine ⟨by rw [hperform], ?_, by rw [hperform]; rfl, ?_⟩
  · rw [hperform]
    show t.slots ++ Array.replicate (t.size + delta.toNat - t.size) slot = _
    rw [Nat.add_sub_cancel_left]
  · exact ⟨_, by rw [hperform], rfl, rfl, rfl⟩

/-- The old size that is answered is never mistaken for a refusal. -/
theorem result_eq_neg_one_iff :
    (t.perform (.grow delta slot)).result = .ok (.grown (-1)) ↔ t.Exceeds delta := by
  refine ⟨fun hresult => ?_, fun h => (refused_of_exceeds h).result⟩
  by_cases h : t.Exceeds delta
  · exact h
  · have hanswers := hresult.symm.trans (granted_of_not_exceeds h).result
    injection hanswers with hanswer
    injection hanswer with hsize
    omega

theorem granted_iff : t.Granted delta slot ↔ ¬ t.Exceeds delta := by
  refine ⟨fun hgranted hover => ?_, granted_of_not_exceeds⟩
  have hanswers := (refused_of_exceeds hover).result.symm.trans hgranted.result
  injection hanswers with hanswer
  injection hanswer with hsize
  omega

/-! ## Two growths in turn -/

variable {a b : BitVec 32}

theorem exceeds_grown_iff (h : ¬ t.Exceeds a) :
    (t.perform (.grow a slot)).state.Exceeds b ↔
      Nat.min t.maxLength sizeLimit < t.size + a.toNat + b.toNat := by
  have hsize := size_extendTo t (Nat.le_add_right t.size a.toNat) slot
  rw [perform_of_not_exceeds h slot, Exceeds, hsize]
  rfl

section

variable (hsum : a.toNat + b.toNat < 2 ^ 32)
include hsum

theorem granted_add_iff :
    t.Granted a slot ∧ (t.perform (.grow a slot)).state.Granted b slot ↔
      t.Granted (a + b) slot := by
  have hadd := BitVec.toNat_add_of_lt hsum
  simp only [granted_iff]
  constructor
  · rintro ⟨hfirst, hsecond⟩
    rw [exceeds_grown_iff hfirst] at hsecond
    unfold Exceeds
    omega
  · intro hboth
    have hfirst : ¬ t.Exceeds a := by
      unfold Exceeds at hboth ⊢
      omega
    rw [exceeds_grown_iff hfirst]
    unfold Exceeds at hboth
    exact ⟨hfirst, by omega⟩

/-- The slots of the second growth stand behind those of the first. -/
theorem run_grow_grow (h : t.Granted (a + b) slot) :
    t.run [.grow a slot, .grow b slot] = t.run [.grow (a + b) slot] := by
  have hadd := BitVec.toNat_add_of_lt hsum
  obtain ⟨hfirst, hsecond⟩ := (granted_add_iff hsum).mpr h
  rw [granted_iff] at h hfirst hsecond
  have hmiddle := size_extendTo t (Nat.le_add_right t.size a.toNat) slot
  calc t.run [.grow a slot, .grow b slot]
      = ((t.perform (.grow a slot)).state.perform (.grow b slot)).state := rfl
    _ = (t.extendTo (t.size + a.toNat) slot).extendTo (t.size + a.toNat + b.toNat) slot := by
        rw [perform_of_not_exceeds hsecond slot, perform_of_not_exceeds hfirst slot, hmiddle]
    _ = t.extendTo (t.size + (a + b).toNat) slot := by
        rw [extendTo_extendTo t (Nat.le_add_right ..) (Nat.le_add_right ..), hadd, Nat.add_assoc]
    _ = (t.perform (.grow (a + b) slot)).state := by rw [perform_of_not_exceeds h slot]
    _ = t.run [.grow (a + b) slot] := rfl

end

end

/-- In every table that exists, for every number of slots of 32 bits and whatever they are to hold.
The size is within the declared maximum and the limit of all tables, and its word is the same
number with a sign and without. Growth answers -1 exactly if the sum with the size is, among the
natural numbers, beyond one of the two; then the table is as it was and a rejection is traced.
Otherwise the old size is answered, the slots are the old ones and behind them that many new ones,
all alike, and the growth is reported. One event is sent either way. Growing by two numbers in turn
succeeds where growing by their sum does, and leads to the same table. -/
theorem growth_appends_within_limit {t : Table} (ht : Reachable t) (slot : Option Element) :
    t.size ≤ Nat.min t.maxLength sizeLimit ∧
    (BitVec.ofNat 32 t.size).toInt = t.size ∧
    (∀ delta : BitVec 32, (t.perform (.grow delta slot)).result = .ok (.grown (-1)) ↔
      Nat.min t.maxLength sizeLimit < t.size + delta.toNat) ∧
    (∀ delta : BitVec 32, (t.perform (.grow delta slot)).result = .ok (.grown (-1)) →
      t.Refused delta slot) ∧
    (∀ delta : BitVec 32, (t.perform (.grow delta slot)).result ≠ .ok (.grown (-1)) →
      t.Granted delta slot) ∧
    (∀ a b : BitVec 32, a.toNat + b.toNat < 2 ^ 32 →
      (t.Granted a slot ∧ (t.perform (.grow a slot)).state.Granted b slot ↔
        t.Granted (a + b) slot) ∧
      (t.Granted (a + b) slot →
        t.run [.grow a slot, .grow b slot] = t.run [.grow (a + b) slot])) := by
  obtain ⟨max, hsized⟩ := sized_of_reachable ht
  have hsize := hsized.size_lt
  refine ⟨?_, ?_, fun delta => result_eq_neg_one_iff, ?_, ?_, ?_⟩
  · rw [hsized.maxLength_eq]
    exact hsized.size_le
  · rw [BitVec.toInt_ofNat']
    exact Int.bmod_eq_of_le (by omega) (by omega)
  · intro delta h
    exact refused_of_exceeds (result_eq_neg_one_iff.mp h)
  · intro delta h
    exact granted_of_not_exceeds (mt result_eq_neg_one_iff.mpr h)
  · intro a b hsum
    exact ⟨granted_add_iff hsum, run_grow_grow hsum⟩

/-- Two slots of a table that declares the greatest maximum that there is: slots up to the limit of
all tables are granted, at once or in turn, and one more is not, nor as many as would wrap the sum
of the sizes to one. -/
theorem growth_up_to_limit :
    Reachable (empty 2 4294967295) ∧ (empty 2 4294967295).Granted 9999998 none ∧
      (empty 2 4294967295).run [.grow 9999997 none, .grow 1 none] =
        (empty 2 4294967295).run [.grow 9999998 none] ∧
      (empty 2 4294967295).Refused 9999999 none ∧
      (empty 2 4294967295).Refused 4294967295 none := by
  have hmade : Reachable (empty 2 4294967295) :=
    .allocate (show allocate 2 4294967295 = .ok (empty 2 4294967295) from rfl)
  obtain ⟨_, _, hanswer, hrefused, hgranted, hturns⟩ := growth_appends_within_limit hmade none
  have hlimit : Nat.min (empty 2 4294967295).maxLength sizeLimit = 10000000 := rfl
  have hsize : (empty 2 4294967295).size = 2 := rfl
  rw [hlimit, hsize] at hanswer
  have hall : (empty 2 4294967295).Granted 9999998 none := by
    refine hgranted 9999998 ?_
    rw [ne_eq, hanswer]
    decide
  refine ⟨hmade, hall, (hturns 9999997 1 (by decide)).2 hall, ?_, ?_⟩
  · exact hrefused 9999999 ((hanswer 9999999).mpr (by decide))
  · exact hrefused 4294967295 ((hanswer 4294967295).mpr (by decide))

end Table
end WasmHost
