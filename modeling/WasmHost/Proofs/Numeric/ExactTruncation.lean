import Mathlib.Data.Rat.Floor
import WasmHost.Proofs.Numeric.Truncation
import WasmHost.Proofs.Text.Float

/-!
# WasmHost.Proofs.Numeric.ExactTruncation

Truncations by the rational numbers that floats stand for. A float is read exactly, its number is
rounded toward zero, and the answer is the word of that integer if there is one.

* `towardZero_div`: rounding a fraction toward zero is the division of its parts.
* `Signedness.read_eq_iff`: the integers of words are a range, one integer for each word.
* `truncation_is_exact`: all eight truncations, for every float.
-/

namespace WasmHost

/-- The integer next to a number on the side of zero. -/
def towardZero (q : ℚ) : ℤ := if 0 ≤ q then ⌊q⌋ else ⌈q⌉

theorem towardZero_div (a : ℤ) {b : Nat} (hb : 0 < b) :
    towardZero ((a : ℚ) / b) = a.tdiv b := by
  have hpos : (0 : ℚ) < b := Nat.cast_pos.mpr hb
  have hsign : 0 ≤ (a : ℚ) / b ↔ 0 ≤ a := by
    rw [le_div_iff₀ hpos, zero_mul, Int.cast_nonneg_iff]
  unfold towardZero
  by_cases ha : 0 ≤ a
  · rw [if_pos (hsign.mpr ha), Rat.floor_intCast_div_natCast, Int.tdiv_eq_ediv_of_nonneg ha]
  · have hneg : 0 ≤ -a := by omega
    rw [if_neg (mt hsign.mp ha), Rat.ceil_intCast_div_natCast, ← Int.tdiv_eq_ediv_of_nonneg hneg,
      Int.neg_tdiv, Int.neg_neg]

theorem towardZero_eq_zero_iff {q : ℚ} : towardZero q = 0 ↔ -1 < q ∧ q < 1 := by
  unfold towardZero
  split
  · rename_i hq
    rw [Int.floor_eq_zero_iff, Set.mem_Ico]
    constructor
    · rintro ⟨_, hlt⟩
      exact ⟨by linarith, hlt⟩
    · rintro ⟨_, hlt⟩
      exact ⟨hq, hlt⟩
  · rename_i hq
    rw [Int.ceil_eq_zero_iff, Set.mem_Ioc]
    constructor
    · rintro ⟨hlt, _⟩
      exact ⟨hlt, by linarith⟩
    · rintro ⟨hlt, _⟩
      exact ⟨hlt, by linarith⟩

theorem towardZero_eq_iff_of_neg {q : ℚ} {n : ℤ} (hn : n < 0) :
    towardZero q = n ↔ (n : ℚ) - 1 < q ∧ q ≤ n := by
  have hcast : (n : ℚ) ≤ -1 := by exact_mod_cast Int.le_sub_one_of_lt hn
  unfold towardZero
  split
  · rename_i hq
    have hfloor := Int.floor_nonneg.mpr hq
    constructor
    · omega
    · rintro ⟨_, hle⟩
      linarith
  · rw [Int.ceil_eq_iff]

/-! ## Words -/

namespace Signedness

/-- The integers that the words of `w` bits stand for. -/
def range (w : Nat) : Signedness → Set ℤ
  | .signed => {n | -(2 ^ (w - 1) : Nat) ≤ n ∧ n < (2 ^ (w - 1) : Nat)}
  | .unsigned => {n | 0 ≤ n ∧ n < (2 ^ w : Nat)}

variable (s : Signedness) {w : Nat}

theorem mem_range_iff {n : ℤ} : n ∈ s.range w ↔ s.lowest w ≤ n ∧ n ≤ s.highest w := by
  cases s <;> simp only [range, Set.mem_ofPred_eq, lowest, highest] <;> omega

instance (n : ℤ) : Decidable (n ∈ s.range w) := decidable_of_iff _ s.mem_range_iff.symm

theorem read_mem_range (x : BitVec w) : s.read x ∈ s.range w := by
  cases s with
  | signed =>
    have hlow := x.le_toInt
    have hhigh := x.toInt_lt
    simp only [range, read, Set.mem_ofPred_eq]
    push_cast
    exact ⟨hlow, hhigh⟩
  | unsigned =>
    exact ⟨Int.natCast_nonneg _, Int.ofNat_lt.mpr x.isLt⟩

theorem ofInt_read (x : BitVec w) : BitVec.ofInt w (s.read x) = x := by
  cases s with
  | signed => exact BitVec.ofInt_toInt
  | unsigned => rw [read, BitVec.ofInt_natCast, BitVec.ofNat_toNat, BitVec.setWidth_eq]

theorem read_ofInt (hw : 0 < w) {n : ℤ} (h : n ∈ s.range w) : s.read (BitVec.ofInt w n) = n := by
  cases s with
  | signed =>
    simp only [range, Set.mem_ofPred_eq] at h
    push_cast at h
    exact BitVec.toInt_ofInt_eq_self hw h.1 h.2
  | unsigned =>
    simp only [range, Set.mem_ofPred_eq] at h
    rw [read, BitVec.toNat_ofInt, Int.emod_eq_of_lt h.1 h.2]
    exact Int.toNat_of_nonneg h.1

/-- The integers of the range have one word each, and no other integer has one. -/
theorem read_eq_iff (hw : 0 < w) {n : ℤ} {x : BitVec w} :
    s.read x = n ↔ n ∈ s.range w ∧ x = BitVec.ofInt w n := by
  constructor
  · rintro rfl
    exact ⟨s.read_mem_range x, (s.ofInt_read x).symm⟩
  · rintro ⟨hn, rfl⟩
    exact s.read_ofInt hw hn

end Signedness

/-- Of the three kinds of floats each float is of one. -/
theorem Binary.kind_cases {e m : Nat} (x : Binary e m) :
    x.isNaN = true ∧ x.isInfinite = false ∧ x.isFinite = false ∨
      x.isNaN = false ∧ x.isInfinite = true ∧ x.isFinite = false ∨
      x.isNaN = false ∧ x.isInfinite = false ∧ x.isFinite = true := by
  cases hfin : x.isFinite with
  | true => exact .inr (.inr ⟨isNaN_of_isFinite hfin, isInfinite_of_isFinite hfin, rfl⟩)
  | false =>
    cases hinf : x.isInfinite with
    | true => exact .inr (.inl ⟨isNaN_of_isInfinite hinf, rfl, rfl⟩)
    | false =>
      refine .inl ⟨?_, rfl, rfl⟩
      by_contra hnan
      rcases isFinite_or_isInfinite (Bool.eq_false_iff.mpr hnan) with h | h
      · rw [hfin] at h
        cases h
      · rw [hinf] at h
        cases h

/-! ## Truncations -/

namespace Numeric

open Binary

/-- What the truncation of a float answers, by the number that the float stands for. -/
structure TruncatesExactly (t : IntType) (f : FloatType) (s : Signedness)
    (x : Binary f.exponentBits f.fractionBits) : Prop where
  invalid_iff : truncate t f s x = .error .invalidConversion ↔ x.isNaN = true
  ok_iff : ∀ n, truncate t f s x = .ok n ↔ x.isFinite = true ∧ s.read n = towardZero x.value
  answers_iff : (∃ n, truncate t f s x = .ok n) ↔
    x.isFinite = true ∧ towardZero x.value ∈ s.range t.width
  overflow_iff : truncate t f s x = .error .intOverflow ↔
    x.isInfinite = true ∨ x.isFinite = true ∧ towardZero x.value ∉ s.range t.width
  zero_iff : truncate t f s x = .ok 0 ↔ x.isFinite = true ∧ -1 < x.value ∧ x.value < 1

theorem truncated_eq_towardZero {e m : Nat} (x : Binary e m) :
    x.truncated = towardZero x.value := by
  rw [truncated_eq, value, towardZero_div _ (one_pos e m)]

section

variable (t : IntType) (f : FloatType) (s : Signedness)
  (x : Binary f.exponentBits f.fractionBits)

theorem truncate_of_isFinite (hx : x.isFinite = true) :
    truncate t f s x =
      if towardZero x.value ∈ s.range t.width then
        .ok (BitVec.ofInt t.width (towardZero x.value))
      else
        .error .intOverflow := by
  rw [truncate_eq t f s x (isNaN_of_isFinite hx), truncated_eq_towardZero]
  simp only [s.mem_range_iff]

theorem truncate_of_isInfinite (hx : x.isInfinite = true) :
    truncate t f s x = .error .intOverflow := by
  have hbeyond := truncated_beyond_words (Nat.le_trans (by decide) f.le_bias) t.width_le s hx
  rw [truncate_eq t f s x (isNaN_of_isInfinite hx), if_neg]
  split at hbeyond <;> omega

theorem truncate_eq_ok_iff {n : BitVec t.width} :
    truncate t f s x = .ok n ↔ x.isFinite = true ∧ s.read n = towardZero x.value := by
  rw [s.read_eq_iff t.width_pos]
  rcases x.kind_cases with ⟨hnan, _, hfin⟩ | ⟨_, hinf, hfin⟩ | ⟨_, _, hfin⟩
  · simp [truncate_of_isNaN t f s x hnan, hfin]
  · simp [truncate_of_isInfinite t f s x hinf, hfin]
  · rw [truncate_of_isFinite t f s x hfin]
    split
    · rename_i hmem
      simp [hfin, hmem, eq_comm]
    · rename_i hmem
      simp [hmem]

theorem truncate_eq_invalidConversion_iff :
    truncate t f s x = .error .invalidConversion ↔ x.isNaN = true := by
  rcases x.kind_cases with ⟨hnan, _, _⟩ | ⟨hnan, hinf, _⟩ | ⟨hnan, _, hfin⟩
  · simp [truncate_of_isNaN t f s x hnan, hnan]
  · simp [truncate_of_isInfinite t f s x hinf, hnan]
  · rw [truncate_of_isFinite t f s x hfin, hnan]
    split <;> simp

theorem truncate_eq_intOverflow_iff :
    truncate t f s x = .error .intOverflow ↔
      x.isInfinite = true ∨ x.isFinite = true ∧ towardZero x.value ∉ s.range t.width := by
  rcases x.kind_cases with ⟨hnan, hinf, hfin⟩ | ⟨_, hinf, _⟩ | ⟨_, hinf, hfin⟩
  · simp [truncate_of_isNaN t f s x hnan, hinf, hfin]
  · simp [truncate_of_isInfinite t f s x hinf, hinf]
  · rw [truncate_of_isFinite t f s x hfin, hinf, hfin]
    split
    · rename_i hmem
      simp [hmem]
    · rename_i hmem
      simp [hmem]

end

/-- For each of the eight truncations and every float. A NaN, whatever its sign and payload, is an
invalid conversion. Of a finite float the exact number is rounded toward zero, and the word that
stands for the integer is answered where there is one; it is so exactly for the integers in the
range of the words. Everything else overflows, the infinities too. So a fraction that is cut off
never makes a difference: all numbers between minus one and one give zero, and those between the
least integer of 32 bits and the one below it give that least integer. -/
theorem truncation_is_exact (t : IntType) (f : FloatType) (s : Signedness)
    (x : Binary f.exponentBits f.fractionBits) :
    TruncatesExactly t f s x ∧
    ∀ y : F64, truncate .i32 .f64 .signed y = .ok (BitVec.intMin 32) ↔
      y.isFinite = true ∧ -2 ^ 31 - 1 < y.value ∧ y.value ≤ -2 ^ 31 := by
  refine ⟨⟨truncate_eq_invalidConversion_iff t f s x, fun n => truncate_eq_ok_iff t f s x, ?_,
    truncate_eq_intOverflow_iff t f s x, ?_⟩, ?_⟩
  · simp only [truncate_eq_ok_iff, s.read_eq_iff t.width_pos]
    simp
  · have hzero : s.read (0 : BitVec t.width) = 0 := by cases s <;> simp [Signedness.read]
    rw [truncate_eq_ok_iff, hzero, eq_comm (a := (0 : ℤ)), towardZero_eq_zero_iff]
  · intro y
    have hleast : Signedness.signed.read (BitVec.intMin 32) = -2147483648 := by decide
    rw [truncate_eq_ok_iff .i32 .f64 .signed y, hleast, eq_comm (a := (-2147483648 : ℤ)),
      towardZero_eq_iff_of_neg (by decide)]
    norm_num

-- the last float above minus one, and minus one
example : truncate .i32 .f32 .unsigned (.ofBits 0xBF7FFFFF#32) = .ok 0 ∧
    truncate .i32 .f32 .unsigned (.ofBits 0xBF800000#32) = .error .intOverflow :=
  ⟨rfl, rfl⟩

end Numeric
end WasmHost
