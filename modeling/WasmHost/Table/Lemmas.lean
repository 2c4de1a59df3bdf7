import WasmHost.Table.Basic

/-!
# WasmHost.Table.Lemmas

A table seen from outside is its size, its maximum and the slot at every index. Here is what each
operation does to that view.
-/

namespace WasmHost
namespace Table

theorem size_empty (length max : Nat) : (empty length max).size = length := by
  simp [empty, size]

theorem allocate_eq_ok_iff {length max : Nat} {t : Table} :
    allocate length max = .ok t ↔
      length ≤ max ∧ length ≤ sizeLimit ∧ t = empty length max := by
  unfold allocate
  split
  · rename_i h
    simp only [reduceCtorEq, false_iff]
    omega
  · rename_i h
    split
    · rename_i hl
      simp only [reduceCtorEq, false_iff]
      omega
    · rename_i hl
      constructor
      · intro ht
        cases ht
        exact ⟨by omega, by omega, rfl⟩
      · rintro ⟨_, _, rfl⟩
        rfl

/-- A table is made with empty slots only. -/
theorem slot_of_empty {length max j : Nat} {slot : Option Element}
    (h : (empty length max).slots[j]? = some slot) : slot = none := by
  rw [empty, Array.getElem?_replicate] at h
  split at h
  · cases h
    rfl
  · cases h

theorem size_fillSlots (slots : Array (Option Element)) (start : Nat) (es : List Element) :
    (fillSlots slots start es).size = slots.size := by
  induction es generalizing slots start with
  | nil => rfl
  | cons e r ih => simp [fillSlots, ih]

/-- A segment fills the slots in its range and no others. -/
theorem getElem?_fillSlots (slots : Array (Option Element)) (start : Nat) (es : List Element)
    (h : start + es.length ≤ slots.size) (i : Nat) :
    (fillSlots slots start es)[i]? =
      if start ≤ i ∧ i < start + es.length then some es[i - start]? else slots[i]? := by
  induction es generalizing slots start with
  | nil =>
    simp only [fillSlots, List.length_nil, Nat.add_zero]
    rw [if_neg (by omega)]
  | cons e r ih =>
    rw [List.length_cons] at h
    have hstep := ih (slots.setIfInBounds start (some e)) (start + 1)
      (by rw [Array.size_setIfInBounds]; omega)
    simp only [fillSlots, hstep, List.length_cons, Array.getElem?_setIfInBounds]
    by_cases h1 : i = start
    · subst h1
      rw [if_neg (by omega), if_pos rfl, if_pos (by omega), if_pos (by omega)]
      simp
    · by_cases h2 : start + 1 ≤ i ∧ i < start + 1 + r.length
      · rw [if_pos h2, if_pos (by omega)]
        have : i - start = (i - (start + 1)) + 1 := by omega
        rw [this, List.getElem?_cons_succ]
      · rw [if_neg h2, if_neg (by omega), if_neg (by omega)]

theorem set_eq_ok_iff {t t' : Table} {i : BitVec 32} {slot : Option Element} :
    t.set i slot = .ok t' ↔
      i.toNat < t.size ∧ t' = { t with slots := t.slots.setIfInBounds i.toNat slot } := by
  unfold set
  split
  · rename_i h
    simp [h, eq_comm]
  · rename_i h
    simp [h]

theorem init_eq_ok_iff {t t' : Table} {offset : BitVec 32} {es : List Element} :
    t.init offset es = .ok t' ↔
      offset.toNat + es.length ≤ t.size ∧
        t' = { t with slots := fillSlots t.slots offset.toNat es } := by
  simp only [init]
  split
  · rename_i h
    simp only [reduceCtorEq, false_iff, not_and]
    omega
  · rename_i h
    simp only [Except.ok.injEq, eq_comm, iff_and_self]
    omega

/-- The slots that growth adds all hold the same; the others stay. -/
theorem getElem?_extendTo (t : Table) (size : Nat) (slot : Option Element) (i : Nat) :
    (t.extendTo size slot).slots[i]? =
      if i < t.size then t.slots[i]? else if i < size then some slot else none := by
  unfold extendTo Table.size
  by_cases hi : i < t.slots.size
  · rw [if_pos hi, Array.getElem?_append_left hi]
  · rw [if_neg hi, Array.getElem?_append_right (by omega), Array.getElem?_replicate]
    by_cases hs : i < size
    · rw [if_pos hs, if_pos (by omega)]
    · rw [if_neg hs, if_neg (by omega)]

theorem size_extendTo (t : Table) {size : Nat} (h : t.size ≤ size) (slot : Option Element) :
    (t.extendTo size slot).size = size := by
  unfold extendTo Table.size at *
  rw [Array.size_append, Array.size_replicate, Nat.add_sub_cancel' h]

/-- Slots that hold the same are added in one step or in two. -/
theorem extendTo_extendTo (t : Table) {size size' : Nat} (h : t.size ≤ size) (h' : size ≤ size')
    (slot : Option Element) :
    (t.extendTo size slot).extendTo size' slot = t.extendTo size' slot := by
  have hsum : size - t.size + (size' - size) = size' - t.size := by omega
  rw [extendTo, size_extendTo t h, extendTo, extendTo, Array.append_assoc,
    Array.replicate_append_replicate, hsum]

/-- Growth either refuses and changes nothing, or extends the table within its limit. -/
theorem grow_cases (t : Table) (delta : BitVec 32) (slot : Option Element) :
    (t.grow delta slot).1 = t ∧ (t.grow delta slot).2.1 = -1 ∨
      t.size + delta.toNat ≤ t.limit ∧ (t.grow delta slot).2.1 = t.size ∧
        (t.grow delta slot).1 = t.extendTo (t.size + delta.toNat) slot := by
  unfold grow
  split
  · exact .inl ⟨rfl, rfl⟩
  · rename_i n h
    obtain ⟨hsum, hle⟩ := Option.filter_eq_some_iff.mp h
    obtain ⟨rfl, _⟩ := Word.checkedAdd_eq_some_iff.mp hsum
    exact .inr ⟨by simpa using hle, rfl, rfl⟩

theorem get_eq_ok_iff {t : Table} {i : BitVec 32} {slot : Option Element} :
    t.get i = .ok slot ↔ t.slots[i.toNat]? = some slot := by
  unfold get
  split
  · rename_i s h
    simp [h]
  · rename_i h
    simp [h]

theorem lt_size_of_get {t : Table} {i : BitVec 32} {slot : Option Element}
    (h : t.get i = .ok slot) : i.toNat < t.size :=
  (Array.getElem?_eq_some_iff.mp (get_eq_ok_iff.mp h)).1

theorem callee_of_size_le {t : Table} {id : SignatureId} {i : BitVec 32} (h : t.size ≤ i.toNat) :
    t.callee id i = .error (.callIndirect (.undefinedElement i.toNat t.size)) := by
  unfold callee
  rw [Array.getElem?_eq_none h]

theorem callee_of_empty {t : Table} {id : SignatureId} {i : BitVec 32} (h : t.get i = .ok none) :
    t.callee id i = .error (.callIndirect (.emptySlot i.toNat)) := by
  unfold callee
  rw [get_eq_ok_iff.mp h]

theorem callee_of_mismatch {t : Table} {id : SignatureId} {i : BitVec 32} {e : Element}
    (h : t.get i = .ok (some e)) (hid : e.signature ≠ id) :
    t.callee id i = .error (.callIndirect (.signatureMismatch id e.signature)) := by
  unfold callee
  rw [get_eq_ok_iff.mp h]
  exact if_neg hid

theorem callee_eq_ok_iff {t : Table} {id : SignatureId} {i : BitVec 32} {f : Addr .function} :
    t.callee id i = .ok f ↔ t.slots[i.toNat]? = some (some ⟨id, f⟩) := by
  unfold callee
  split
  · rename_i h
    simp [h]
  · rename_i h
    simp [h]
  · rename_i e h
    rw [h]
    cases e with
    | mk s g =>
      by_cases hs : s = id
      · simp [hs]
      · simp [hs]

end Table
end WasmHost
