import WasmHost.Memory.Basic

/-!
# WasmHost.Memory.Lemmas

A memory seen from outside is its length, its maximum and the byte at every address. Here is what
each operation does to that view.

* `span_eq`, `span_eq_ok`: the bounds check on words decides as the sum of natural numbers does.
* `byteAt_splice`: a write changes the bytes in its range and no others.
* `slice_splice`, `splice_slice`: bytes read where they were written, and written where they were
  read.
* `byteAt_extendTo`: growth keeps every byte and adds zeros.
* `eq_splice_of_write`, `eq_splice_of_fill`, `eq_splice_of_copy`: a write that succeeds puts its
  bytes at its address, all of them in the memory.
-/

namespace WasmHost
namespace Memory

theorem size_zeros (n : Nat) : (zeros n).size = n := by simp [zeros, ByteArray.size]

theorem byteLen_zeroed (pages max : Nat) : (zeroed pages max).byteLen = pages * pageSize :=
  size_zeros _

theorem size_zeroed (pages max : Nat) : (zeroed pages max).size = pages := by
  simp [size, byteLen_zeroed, pageSize]

theorem byteAt_zeros (n a : Nat) : ((zeros n)[a]?).getD 0 = 0 := by
  by_cases h : a < (zeros n).size
  · rw [getElem?_pos (zeros n) a h]
    simp [zeros, ByteArray.getElem_eq_getElem_data]
  · rw [getElem?_neg (zeros n) a h]
    rfl

theorem byteAt_zeroed (pages max a : Nat) : (zeroed pages max).byteAt a = 0 :=
  byteAt_zeros _ _

theorem byteAt_of_le {m : Memory} {a : Nat} (h : m.byteLen ≤ a) : m.byteAt a = 0 := by
  unfold byteAt byteLen at *
  rw [getElem?_neg m.bytes a (by omega)]
  rfl

theorem toNat_address (p o : BitVec 32) :
    (p.setWidth 64 + o.setWidth 64).toNat = p.toNat + o.toNat := by
  have hp := p.isLt
  have ho := o.isLt
  simp only [BitVec.toNat_add, BitVec.toNat_setWidth]
  omega

theorem address_overflows_iff (p o : BitVec 32) :
    (BitVec.allOnes 32).setWidth 64 < p.setWidth 64 + o.setWidth 64 ↔
      2 ^ 32 - 1 < p.toNat + o.toNat := by
  rw [BitVec.lt_def, toNat_address]
  rfl

/-- The bounds check on words decides as the sum of natural numbers does: a memory has no byte
beyond 64 bits, so a sum that does not fit there is out of bounds in any case. -/
theorem span_eq {m : Memory} (hm : m.byteLen < 2 ^ 64) (p o : BitVec 32) (width : Nat) :
    m.span p o width =
      if 2 ^ 32 - 1 < p.toNat + o.toNat then
        .error (.range (.addressOverflow p.toNat o.toNat))
      else if p.toNat + o.toNat + width ≤ m.byteLen then
        .ok (p.toNat + o.toNat)
      else
        .error (.range (.outOfBounds (p.toNat + o.toNat) width m.byteLen)) := by
  simp only [span, address_overflows_iff, toNat_address]
  by_cases hov : 2 ^ 32 - 1 < p.toNat + o.toNat
  · rw [if_pos hov, if_pos hov]
  · rw [if_neg hov, if_neg hov]
    cases hsum : Word.checkedAdd 64 (p.toNat + o.toNat) width with
    | none =>
      have hbig : ¬ p.toNat + o.toNat + width < 2 ^ 64 := by
        intro h
        rw [Word.checkedAdd_eq_some_iff.mpr ⟨rfl, h⟩] at hsum
        cases hsum
      rw [if_neg (by omega)]
    | some stop =>
      obtain ⟨rfl, _⟩ := Word.checkedAdd_eq_some_iff.mp hsum
      rfl

/-- An access that passes the bounds check lies in the memory. -/
theorem bounds_of_span {m : Memory} {p o : BitVec 32} {width a : Nat}
    (h : m.span p o width = .ok a) :
    a = p.toNat + o.toNat ∧ p.toNat + o.toNat + width ≤ m.byteLen := by
  simp only [span, toNat_address] at h
  split at h
  · cases h
  · split at h
    · cases h
    · rename_i stop hsum
      split at h
      · rename_i hle
        obtain ⟨rfl, _⟩ := Word.checkedAdd_eq_some_iff.mp hsum
        cases h
        exact ⟨rfl, hle⟩
      · cases h

/-- An access whose address has 32 bits and whose bytes are in the memory passes the bounds check,
whatever the memory. -/
theorem span_eq_ok {m : Memory} {p o : BitVec 32} {width : Nat}
    (haddress : p.toNat + o.toNat ≤ 2 ^ 32 - 1) (hwidth : width ≤ 2 ^ 32)
    (h : p.toNat + o.toNat + width ≤ m.byteLen) : m.span p o width = .ok (p.toNat + o.toNat) := by
  have hsum : Word.checkedAdd 64 (p.toNat + o.toNat) width = some (p.toNat + o.toNat + width) :=
    Word.checkedAdd_eq_some_iff.mpr ⟨rfl, by omega⟩
  simp only [span, address_overflows_iff, toNat_address]
  rw [if_neg (by omega), hsum]
  exact if_pos h

theorem splice_bytes {m : Memory} {start : Nat} {b : ByteArray} :
    (m.splice start b).bytes =
      m.bytes.extract 0 start ++ b ++ m.bytes.extract (start + b.size) m.bytes.size := by
  simp [splice, ByteArray.copySlice_eq_append]

theorem maxPages_splice (m : Memory) (start : Nat) (b : ByteArray) :
    (m.splice start b).maxPages = m.maxPages := rfl

theorem byteLen_splice {m : Memory} {start : Nat} {b : ByteArray}
    (h : start + b.size ≤ m.byteLen) : (m.splice start b).byteLen = m.byteLen := by
  unfold byteLen at h
  simp only [byteLen, splice_bytes, ByteArray.size_append, ByteArray.size_extract]
  omega

theorem byteAt_splice {m : Memory} {start : Nat} {b : ByteArray}
    (h : start + b.size ≤ m.byteLen) (a : Nat) :
    (m.splice start b).byteAt a =
      if start ≤ a ∧ a < start + b.size then (b[a - start]?).getD 0 else m.byteAt a := by
  have hsize := byteLen_splice h
  unfold byteLen at h hsize
  by_cases ha : a < m.bytes.size
  · unfold byteAt
    rw [getElem?_pos (m.splice start b).bytes a (by omega), getElem?_pos m.bytes a ha]
    simp only [Option.getD_some, splice_bytes]
    by_cases h1 : a < start
    · rw [if_neg (by omega),
        ByteArray.getElem_append_left (by
          simp only [ByteArray.size_append, ByteArray.size_extract]; omega),
        ByteArray.getElem_append_left (by simp only [ByteArray.size_extract]; omega),
        ByteArray.getElem_extract]
      simp
    · by_cases h2 : a < start + b.size
      · rw [if_pos (by omega), getElem?_pos b (a - start) (by omega),
          ByteArray.getElem_append_left (by
            simp only [ByteArray.size_append, ByteArray.size_extract]; omega),
          ByteArray.getElem_append_right (by simp only [ByteArray.size_extract]; omega)]
        simp only [ByteArray.size_extract, Option.getD_some]
        refine getElem_congr_idx ?_
        omega
      · rw [if_neg (by omega),
          ByteArray.getElem_append_right (by
            simp only [ByteArray.size_append, ByteArray.size_extract]; omega),
          ByteArray.getElem_extract]
        refine getElem_congr_idx ?_
        simp only [ByteArray.size_append, ByteArray.size_extract]
        omega
  · rw [byteAt_of_le (m := m.splice start b) (by unfold byteLen; omega),
      byteAt_of_le (m := m) (by unfold byteLen; omega), if_neg (by omega)]

theorem byteAt_splice_inside {m : Memory} {start i : Nat} {b : ByteArray}
    (h : start + b.size ≤ m.byteLen) (hi : i < b.size) :
    (m.splice start b).byteAt (start + i) = b[i] := by
  rw [byteAt_splice h, if_pos (by omega), Nat.add_sub_cancel_left, getElem?_pos b i hi]
  rfl

theorem byteAt_splice_outside {m : Memory} {start a : Nat} {b : ByteArray}
    (h : start + b.size ≤ m.byteLen) (ha : ∀ i < b.size, a ≠ start + i) :
    (m.splice start b).byteAt a = m.byteAt a := by
  rw [byteAt_splice h, if_neg]
  rintro ⟨hle, hlt⟩
  exact ha (a - start) (by omega) (by omega)

theorem size_slice {m : Memory} {start width : Nat} (h : start + width ≤ m.byteLen) :
    (m.slice start width).size = width := by
  unfold byteLen at h
  simp only [slice, ByteArray.size_extract]
  omega

theorem getElem_slice {m : Memory} {start width i : Nat} (h : start + width ≤ m.byteLen)
    (hi : i < width) : ((m.slice start width)[i]?).getD 0 = m.byteAt (start + i) := by
  have hs := size_slice h
  unfold byteLen at h
  rw [getElem?_pos (m.slice start width) i (by omega)]
  unfold byteAt
  rw [getElem?_pos m.bytes (start + i) (by omega)]
  simp only [Option.getD_some, slice, ByteArray.getElem_extract]

theorem slice_one {m : Memory} {a : Nat} (h : a < m.byteLen) :
    m.slice a 1 = ⟨#[m.byteAt a]⟩ := by
  have hs : (m.slice a 1).size = 1 := size_slice h
  refine ByteArray.ext_getElem hs ?_
  intro i hi _
  have hb : ((m.slice a 1)[i]?).getD 0 = m.byteAt (a + i) := getElem_slice h (by omega)
  rw [getElem?_pos (m.slice a 1) i hi] at hb
  obtain rfl : i = 0 := by omega
  exact hb

theorem slice_splice {m : Memory} {start : Nat} {b : ByteArray}
    (h : start + b.size ≤ m.byteLen) : (m.splice start b).slice start b.size = b := by
  have hfits : start + b.size ≤ (m.splice start b).byteLen := by rwa [byteLen_splice h]
  refine ByteArray.ext_getElem (size_slice hfits) ?_
  intro i hi hib
  have hbyte := getElem_slice hfits hib
  rw [getElem?_pos _ i hi, byteAt_splice_inside h hib] at hbyte
  exact hbyte

/-- Bytes put back where they were taken from change nothing. -/
theorem splice_slice {m : Memory} {start width : Nat} (h : start + width ≤ m.byteLen) :
    m.splice start (m.slice start width) = m := by
  have hbytes : (m.splice start (m.slice start width)).bytes = m.bytes := by
    rw [splice_bytes, size_slice h]
    unfold byteLen at h
    rw [slice, ByteArray.extract_append_extract, Nat.min_eq_left (Nat.zero_le _),
      Nat.max_eq_right (by omega), ByteArray.extract_append_extract,
      Nat.min_eq_left (Nat.zero_le _), Nat.max_eq_right h, ByteArray.extract_zero_size]
  cases m
  exact congrArg (Memory.mk · _) hbytes

/-- Growth keeps every byte; what it adds reads as zero, as all that lies behind the end does. -/
theorem byteAt_extendTo (m : Memory) (len a : Nat) : (m.extendTo len).byteAt a = m.byteAt a := by
  unfold byteAt extendTo
  by_cases ha : a < m.bytes.size
  · rw [getElem?_pos (m.bytes ++ zeros (len - m.byteLen)) a
        (by rw [ByteArray.size_append]; omega),
      getElem?_pos m.bytes a ha, ByteArray.getElem_append_left ha]
  · rw [getElem?_neg m.bytes a ha]
    by_cases hb : a < (m.bytes ++ zeros (len - m.byteLen)).size
    · have hr := byteAt_zeros (len - m.byteLen) (a - m.bytes.size)
      rw [ByteArray.size_append] at hb
      rw [getElem?_pos (zeros (len - m.byteLen)) _ (by omega)] at hr
      rw [getElem?_pos (m.bytes ++ zeros (len - m.byteLen)) a
          (by rw [ByteArray.size_append]; omega),
        ByteArray.getElem_append_right (by omega)]
      exact hr
    · rw [getElem?_neg (m.bytes ++ zeros (len - m.byteLen)) a hb]

theorem byteLen_extendTo (m : Memory) (len : Nat) :
    (m.extendTo len).byteLen = max m.byteLen len := by
  simp only [extendTo, byteLen, ByteArray.size_append, size_zeros]
  omega

theorem maxPages_extendTo (m : Memory) (len : Nat) : (m.extendTo len).maxPages = m.maxPages := rfl

/-! ## Writes -/

theorem eq_splice_of_write {m m' : Memory} {p o : BitVec 32} {b : ByteArray}
    (h : m.write p o b = .ok m') :
    p.toNat + o.toNat + b.size ≤ m.byteLen ∧ m' = m.splice (p.toNat + o.toNat) b := by
  unfold write at h
  split at h
  · rename_i start hspan
    obtain ⟨rfl, hle⟩ := bounds_of_span hspan
    cases h
    exact ⟨hle, rfl⟩
  · cases h

theorem eq_splice_of_fill {m m' : Memory} {dst len : BitVec 32} {value : UInt8}
    (h : m.fill dst value len = .ok m') :
    dst.toNat + len.toNat ≤ m.byteLen ∧
      m' = m.splice dst.toNat ⟨Array.replicate len.toNat value⟩ := by
  unfold fill at h
  split at h
  · rename_i start hspan
    obtain ⟨rfl, hle⟩ := bounds_of_span hspan
    cases h
    exact ⟨hle, rfl⟩
  · cases h

theorem eq_splice_of_copy {m m' : Memory} {dst src len : BitVec 32}
    (h : m.copy dst src len = .ok m') :
    src.toNat + len.toNat ≤ m.byteLen ∧ dst.toNat + len.toNat ≤ m.byteLen ∧
      m' = m.splice dst.toNat (m.slice src.toNat len.toNat) := by
  unfold copy at h
  split at h
  · cases h
  · rename_i start hsrc
    split at h
    · cases h
    · rename_i target hdst
      obtain ⟨rfl, hreads⟩ := bounds_of_span hsrc
      obtain ⟨rfl, hwrites⟩ := bounds_of_span hdst
      exact ⟨hreads, hwrites, (Except.ok.inj h).symm⟩

/-- Growth either refuses and changes nothing, or adds pages within the maximum. -/
theorem grow_cases (m : Memory) (delta : BitVec 32) :
    (m.grow delta).1 = m ∧ (m.grow delta).2.1 = -1 ∨
      m.size + delta.toNat ≤ m.maxPages ∧ m.size + delta.toNat ≤ pageLimit ∧
        (m.grow delta).2.1 = m.size ∧
        (m.grow delta).1 = m.extendTo ((m.size + delta.toNat) * pageSize) := by
  unfold grow
  split
  · exact .inl ⟨rfl, rfl⟩
  · simp only
    split
    · exact .inl ⟨rfl, rfl⟩
    · rename_i h
      exact .inr ⟨by omega, by omega, rfl, rfl⟩

theorem allocate_eq_ok_iff {initial max : Nat} {m : Memory} :
    allocate initial max = .ok m ↔
      initial ≤ max ∧ max ≤ pageLimit ∧ m = zeroed initial max := by
  unfold allocate
  split
  · rename_i h
    simp only [reduceCtorEq, false_iff]
    omega
  · rename_i h
    split
    · rename_i hi
      simp only [reduceCtorEq, false_iff]
      omega
    · rename_i hi
      constructor
      · intro hm
        exact ⟨by omega, by omega, (Except.ok.inj hm).symm⟩
      · rintro ⟨_, _, rfl⟩
        rfl

end Memory
end WasmHost
