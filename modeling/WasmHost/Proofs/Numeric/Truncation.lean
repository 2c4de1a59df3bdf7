import WasmHost.Numeric.Conversion
import WasmHost.Proofs.Binary.Whole

/-!
# WasmHost.Proofs.Numeric.Truncation

What the truncations answer. The bounds with which they compare their operand differ from format to
format and from word to word, and so does whether a bound is let in; the saturating ones compare
with bounds of their own. Here all of them are shown to say one thing: the value, cut toward zero,
is in the range of the word.

* `truncated_beyond_words`: an infinity is beyond all words.
* `contains_fitting_iff`: the guard of a trapping truncation.
* `truncate_eq`: a trapping truncation, by the value.
* `truncateSat_eq`: a saturating truncation is the cast, which its guards leave as it is.
-/

namespace WasmHost

/-! ## Ranges of words -/

theorem Signedness.lowest_le (w : Nat) (s : Signedness) : s.lowest w ≤ 0 := by
  cases s
  · exact Int.neg_nonpos_of_nonneg (Int.natCast_nonneg _)
  · exact Int.le_refl 0

theorem Signedness.neg_le_lowest {w : Nat} (s : Signedness) (hw : w ≤ 64) :
    -(2 ^ 64 : Nat) ≤ s.lowest w := by
  have hpow : 2 ^ (w - 1) ≤ 2 ^ 64 := Nat.pow_le_pow_right (by decide) (by omega)
  cases s with
  | signed =>
    simp only [lowest]
    omega
  | unsigned =>
    simp only [lowest]
    omega

theorem Signedness.highest_lt {w : Nat} (s : Signedness) (hw : w ≤ 64) :
    s.highest w < (2 ^ 64 : Nat) := by
  have hsigned : 2 ^ (w - 1) ≤ 2 ^ 64 := Nat.pow_le_pow_right (by decide) (by omega)
  have hunsigned : 2 ^ w ≤ 2 ^ 64 := Nat.pow_le_pow_right (by decide) hw
  cases s <;> simp only [highest] <;> omega

theorem Signedness.highest_nonneg (w : Nat) (s : Signedness) : 0 ≤ s.highest w := by
  have hsigned := Nat.two_pow_pos (w - 1)
  have hunsigned := Nat.two_pow_pos w
  cases s <;> simp only [highest] <;> omega

namespace Binary

variable {e m : Nat}

/-- An infinity is cut to a number beyond all words, on the side of its sign. -/
theorem truncated_beyond_words (he : 64 ≤ bias e) {w : Nat} (hw : w ≤ 64) (s : Signedness)
    {x : Binary e m} (h : x.isInfinite = true) :
    if x.sign then x.truncated < s.lowest w else s.highest w < x.truncated := by
  have hlow := s.neg_le_lowest hw
  have hhigh := s.highest_lt hw
  have hpow : 2 ^ 64 < 2 ^ (bias e + 1) := Nat.pow_lt_pow_right (by decide) (by omega)
  rw [truncated_of_isInfinite (one_lt_of_bias (by decide) he) h]
  split <;> omega

/-- The cast, without a case for the infinities: what they are cut to is clamped like any number. -/
theorem toWord_eq (he : 64 ≤ bias e) {w : Nat} (hw : w ≤ 64) (s : Signedness) {x : Binary e m}
    (hx : x.isNaN = false) :
    x.toWord w s = BitVec.ofInt w (Max.max (s.lowest w) (Min.min (s.highest w) x.truncated)) := by
  unfold toWord
  rw [hx]
  simp only [Bool.false_eq_true, if_false]
  by_cases hinf : x.isInfinite = true
  · have hlow := s.lowest_le w
    have hhigh := s.highest_nonneg w
    have hbeyond := truncated_beyond_words he hw s hinf
    rw [if_pos hinf]
    congr 1
    by_cases hsign : x.sign = true
    · rw [if_pos hsign] at hbeyond ⊢
      omega
    · rw [if_neg hsign] at hbeyond ⊢
      omega
  · rw [if_neg hinf]

end Binary

namespace Numeric

open Binary

variable {e m : Nat}

/-! ## Trapping truncation -/

/-- The bounds of the interval are floats, and it has the floats whose whole part lies between `low`
and `high`. -/
structure Interval.Fits (i : Interval) (e m : Nat) (low high : Int) : Prop where
  low_isFloat : IsFloat e m i.low
  high_isFloat : IsFloat e m i.high
  low_le : low ≤ 0
  high_nonneg : 0 ≤ high
  high_eq : i.high = high + 1
  low_eq : i.lowIncluded = false ∧ i.low = low - 1 ∨
    i.lowIncluded = true ∧ i.low = low ∧ ∃ k, low = -(2 ^ k : Nat) ∧ m ≤ k

theorem Interval.Fits.contains_iff (he : 1 < e) {i : Interval} {low high : Int}
    (h : i.Fits e m low high) {x : Binary e m} (hx : x.isNaN = false) :
    i.contains x = true ↔ low ≤ x.truncated ∧ x.truncated ≤ high := by
  have hone := Int.natCast_pos.mpr (one_pos e m)
  have hhigh : x.lt (Binary.ofInt e m i.high) = true ↔ x.truncated ≤ high := by
    rw [lt_ofInt_iff he hx h.high_isFloat, h.high_eq, truncated_eq,
      ← tdiv_lt_iff hone (Int.lt_add_one_of_le h.high_nonneg), Int.lt_add_one_iff]
  have hbelow : (low - 1) * (one e m : Int) < x.scaled ↔ low ≤ x.truncated := by
    rw [truncated_eq, ← lt_tdiv_iff hone (Int.sub_one_lt_of_le h.low_le), Int.sub_one_lt_iff]
  have hlow : (if i.lowIncluded then (Binary.ofInt e m i.low).le x
      else (Binary.ofInt e m i.low).lt x) = true ↔ low ≤ x.truncated := by
    rcases h.low_eq with ⟨hopen, hend⟩ | ⟨hclosed, hend, k, hpow, hk⟩
    · simp only [hopen, Bool.false_eq_true, if_false]
      rw [ofInt_lt_iff he hx h.low_isFloat, hend, hbelow]
    · simp only [hclosed, if_true]
      rw [ofInt_le_iff he hx h.low_isFloat, hend, ← hbelow, hpow]
      exact neg_two_pow_le_scaled_iff x hk
  unfold contains
  rw [Bool.and_eq_true, hlow, hhigh]

/-- Both formats have the powers of two that bound the words. -/
theorem isFloat_bound (f : FloatType) {k : Nat} (hk : k ≤ 64) :
    IsFloat f.exponentBits f.fractionBits (2 ^ k : Nat) := by
  have hbias := f.le_bias
  exact isFloat_two_pow (by omega)

theorem isFloat_neg_one (f : FloatType) : IsFloat f.exponentBits f.fractionBits (-1) := by
  have hbias := f.le_bias
  exact isFloat_of_natAbs_lt (k := 1) (by decide) (by omega) (by omega)

theorem fits_fitting (t : IntType) (f : FloatType) (s : Signedness) :
    (Interval.fitting t f s).Fits f.exponentBits f.fractionBits (s.lowest t.width)
      (s.highest t.width) := by
  have hone := isFloat_neg_one f
  have hpow : ∀ k ≤ 64, IsFloat f.exponentBits f.fractionBits (2 ^ k : Nat) :=
    fun k hk => isFloat_bound f hk
  cases s with
  | unsigned =>
    cases t with
    | i32 =>
      cases f <;>
        exact ⟨hone, hpow 32 (by decide), by decide, by decide, by decide, .inl ⟨rfl, by decide⟩⟩
    | i64 =>
      cases f <;>
        exact ⟨hone, hpow 64 (by decide), by decide, by decide, by decide, .inl ⟨rfl, by decide⟩⟩
  | signed =>
    cases t with
    | i32 =>
      cases f with
      | f32 =>
        exact ⟨IsFloat.neg (hpow 31 (by decide)), hpow 31 (by decide), by decide, by decide,
          by decide, .inr ⟨rfl, by decide, 31, by decide, by decide⟩⟩
      | f64 =>
        exact ⟨isFloat_of_natAbs_lt (k := 32) (by decide) (by decide) (by decide),
          hpow 31 (by decide), by decide, by decide, by decide, .inl ⟨rfl, by decide⟩⟩
    | i64 =>
      cases f <;>
        exact ⟨IsFloat.neg (hpow 63 (by decide)), hpow 63 (by decide), by decide, by decide,
          by decide, .inr ⟨rfl, by decide, 63, by decide, by decide⟩⟩

section

variable (t : IntType) (f : FloatType) (s : Signedness)
  (x : Binary f.exponentBits f.fractionBits)

theorem contains_fitting_iff (hx : x.isNaN = false) :
    (Interval.fitting t f s).contains x = true ↔
      s.lowest t.width ≤ x.truncated ∧ x.truncated ≤ s.highest t.width :=
  (fits_fitting t f s).contains_iff f.one_lt_exponentBits hx

theorem toWord_fitting (hx : x.isNaN = false) :
    x.toWord t.width s = BitVec.ofInt t.width
      (Max.max (s.lowest t.width) (Min.min (s.highest t.width) x.truncated)) :=
  toWord_eq (Nat.le_trans (by decide) f.le_bias) t.width_le s hx

theorem truncate_of_isNaN (hx : x.isNaN = true) :
    truncate t f s x = .error .invalidConversion := by
  unfold truncate
  rw [hx, if_pos rfl]

/-- A trapping truncation answers the whole part of the value where a word stands for it, and
overflows everywhere else. -/
theorem truncate_eq (hx : x.isNaN = false) :
    truncate t f s x =
      if s.lowest t.width ≤ x.truncated ∧ x.truncated ≤ s.highest t.width then
        .ok (BitVec.ofInt t.width x.truncated)
      else
        .error .intOverflow := by
  unfold truncate
  simp only [hx, Bool.false_eq_true, if_false, contains_fitting_iff t f s x hx]
  by_cases h : s.lowest t.width ≤ x.truncated ∧ x.truncated ≤ s.highest t.width
  · rw [if_pos h, if_pos h, toWord_fitting t f s x hx, Int.min_eq_right h.2, Int.max_eq_right h.1]
  · rw [if_neg h, if_neg h]

/-! ## Saturating truncation -/

/-- Beyond the bounds of the clamp there is nothing but the two ends of the range. -/
structure Clamp.Fits (c : Clamp) (e m : Nat) (low high : Int) : Prop where
  low_isFloat : IsFloat e m c.low
  high_isFloat : IsFloat e m c.high
  low_neg : c.low < 0
  high_pos : 0 < c.high
  low_le : c.low ≤ low
  le_high : high ≤ c.high

theorem clamp_fits : (Clamp.fitting t f s).Fits f.exponentBits f.fractionBits (s.lowest t.width)
    (s.highest t.width) := by
  have hone := isFloat_neg_one f
  have hpow : ∀ k ≤ 64, IsFloat f.exponentBits f.fractionBits (2 ^ k : Nat) :=
    fun k hk => isFloat_bound f hk
  cases s with
  | unsigned =>
    cases t with
    | i32 =>
      cases f with
      | f32 => exact ⟨hone, hpow 32 (by decide), by decide, by decide, by decide, by decide⟩
      | f64 =>
        exact ⟨hone, isFloat_of_natAbs_lt (k := 32) (by decide) (by decide) (by decide), by decide,
          by decide, by decide, by decide⟩
    | i64 =>
      cases f <;>
        exact ⟨hone, hpow 64 (by decide), by decide, by decide, by decide, by decide⟩
  | signed =>
    cases t with
    | i32 =>
      cases f with
      | f32 =>
        exact ⟨IsFloat.neg (hpow 31 (by decide)), hpow 31 (by decide), by decide, by decide,
          by decide, by decide⟩
      | f64 =>
        exact ⟨IsFloat.neg (hpow 31 (by decide)),
          isFloat_of_natAbs_lt (k := 31) (by decide) (by decide) (by decide), by decide, by decide,
          by decide, by decide⟩
    | i64 =>
      cases f <;>
        exact ⟨IsFloat.neg (hpow 63 (by decide)), hpow 63 (by decide), by decide, by decide,
          by decide, by decide⟩

/-- The guards of a saturating truncation only give away early what the cast would answer. -/
theorem truncateSat_eq : truncateSat t f s x = x.toWord t.width s := by
  have he := f.one_lt_exponentBits
  have hfits := clamp_fits t f s
  have hone := Int.natCast_pos.mpr (one_pos f.exponentBits f.fractionBits)
  have hlow := s.lowest_le t.width
  have hhigh := s.highest_nonneg t.width
  cases hx : x.isNaN with
  | true => simp [truncateSat, toWord, hx]
  | false =>
    unfold truncateSat
    simp only [hx, Bool.false_eq_true, if_false]
    split
    · rename_i h
      rw [le_ofInt_iff he hx hfits.low_isFloat] at h
      have htrunc : x.truncated ≤ s.lowest t.width := by
        have hcut := lt_tdiv_iff (v := x.scaled) hone hfits.low_neg
        have hle := hfits.low_le
        rw [← truncated_eq] at hcut
        omega
      rw [toWord_fitting t f s x hx]
      congr 1
      omega
    · split
      · rename_i h
        rw [ofInt_le_iff he hx hfits.high_isFloat] at h
        have htrunc : s.highest t.width ≤ x.truncated := by
          have hcut := tdiv_lt_iff (v := x.scaled) hone hfits.high_pos
          have hle := hfits.le_high
          rw [← truncated_eq] at hcut
          omega
        rw [toWord_fitting t f s x hx]
        congr 1
        omega
      · rfl

end

end Numeric
end WasmHost
