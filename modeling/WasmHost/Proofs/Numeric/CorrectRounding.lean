import Mathlib.Algebra.Order.Field.Basic
import Mathlib.Tactic.Linarith
import WasmHost.Proofs.Numeric.RoundTrip
import WasmHost.Proofs.Text.Float

/-!
# WasmHost.Proofs.Numeric.CorrectRounding

What it means for a float to be the one nearest to a number, said by distances alone, and that the
conversions of words give it. Distances are compared as integers: every finite float is a whole
number of units, and near a number of the same binade it is a multiple of the last significand bit.

* `Representable.dvd_or_lt`: floats are multiples of that bit, or lie below the binade.
* `isNearestEven_nearest`: the nearest float is nearest.
* `IsNearestEven.unique`: no other float is.
* `conversion_is_correctly_rounded`: all four conversions, for every word.
-/

namespace WasmHost

namespace Rounding

variable {n d : Nat}

/-- Of two quotients that are as near, the even one is taken. -/
theorem divide_nearestEven_of_tie (negative : Bool) (h : 2 * (n % d) = d) :
    nearestEven.divide negative n d % 2 = 0 := by
  have hparity := Nat.mod_two_eq_zero_or_one (n / d)
  unfold divide
  rw [toNat_away_nearestEven, if_pos h]
  omega

/-- What is rounded to is at most half a divisor away. -/
theorem two_mul_natAbs_divide_sub_le (negative : Bool) (hd : 0 < d) :
    2 * ((nearestEven.divide negative n d * d : Nat) - (n : Int)).natAbs ≤ d := by
  obtain ⟨hlow, hhigh⟩ := two_mul_divide_nearestEven negative n d hd
  rw [Nat.mul_add, Nat.mul_left_comm, Nat.mul_one, Nat.mul_comm d] at hlow
  rw [Nat.mul_left_comm, Nat.mul_comm d] at hhigh
  omega

/-- Different multiples are at least a divisor apart. -/
theorem le_natAbs_mul_sub_mul {k : Int} {s : Nat} (hne : k ≠ s) (d : Nat) :
    d ≤ (k * d - (s * d : Nat)).natAbs := by
  have hapart : k * d - (s * d : Nat) = (k - s) * d := by
    rw [Int.natCast_mul, ← Int.sub_mul]
  rw [hapart, Int.natAbs_mul, Int.natAbs_natCast]
  exact Nat.le_mul_of_pos_left d (Int.natAbs_pos.mpr (by omega))

/-- No multiple is nearer than the one that is rounded to. -/
theorem natAbs_divide_sub_le (negative : Bool) (hd : 0 < d) (k : Int) :
    ((nearestEven.divide negative n d * d : Nat) - (n : Int)).natAbs ≤ (k * d - n).natAbs := by
  have hhalf := two_mul_natAbs_divide_sub_le (n := n) negative hd
  by_cases hsame : k = nearestEven.divide negative n d
  · rw [hsame, ← Int.natCast_mul]
  · have hapart := le_natAbs_mul_sub_mul hsame d
    omega

/-- A multiple that is as near lies on the other side, as far away as can be. -/
theorem even_divide_of_natAbs_eq (negative : Bool) (hd : 0 < d) {k : Int}
    (hne : k ≠ nearestEven.divide negative n d)
    (heq : (k * d - n).natAbs = ((nearestEven.divide negative n d * d : Nat) - (n : Int)).natAbs) :
    nearestEven.divide negative n d % 2 = 0 := by
  have hhalf := two_mul_natAbs_divide_sub_le (n := n) negative hd
  have hapart := le_natAbs_mul_sub_mul hne d
  have hfar : 2 * ((nearestEven.divide negative n d * d : Nat) - (n : Int)).natAbs = d := by omega
  have hdiv := Nat.div_add_mod n d
  have hmod := Nat.mod_lt n hd
  have hbit := Bool.toNat_le (nearestEven.away negative n d)
  have hquot : nearestEven.divide negative n d * d =
      d * (n / d) + (nearestEven.away negative n d).toNat * d := by
    rw [divide, Nat.add_mul, Nat.mul_comm (n / d)]
  refine divide_nearestEven_of_tie negative ?_
  rcases Nat.le_one_iff_eq_zero_or_eq_one.mp hbit with h | h
  · rw [h] at hquot
    omega
  · rw [h] at hquot
    omega

end Rounding

namespace Binary

variable {e m n : Nat}

/-- The float is finite, no finite float is nearer to the number, and if another one is as near, the
significand of this one is even. -/
structure IsNearestEven (x : Binary e m) (v : ℚ) : Prop where
  finite : x.isFinite = true
  nearest : ∀ y : Binary e m, y.isFinite = true → |x.value - v| ≤ |y.value - v|
  even_of_tie : ∀ y : Binary e m, y.isFinite = true → y.value ≠ x.value →
    |y.value - v| = |x.value - v| → x.fraction % 2 = 0

/-! ## Distances in units -/

theorem one_cast_pos (e m : Nat) : (0 : ℚ) < (one e m : Nat) := Nat.cast_pos.mpr (one_pos e m)

theorem value_eq_value_iff {x y : Binary e m} : x.value = y.value ↔ x.scaled = y.scaled := by
  rw [value, value, div_left_inj' (one_cast_pos e m).ne', Int.cast_inj]

/-- The distance of a float from a whole number, counted in least positive values. -/
def distance (x : Binary e m) (n : Nat) : Nat := (x.scaled - (n * one e m : Nat)).natAbs

theorem abs_div_sub {d : Nat} (hd : 0 < d) (a k : Int) :
    |(a : ℚ) / d - k| = ((a - k * d).natAbs : ℚ) / d := by
  have hpos : (0 : ℚ) < d := Nat.cast_pos.mpr hd
  have hsub : (a : ℚ) / d - k = ((a - k * d : Int) : ℚ) / d := by
    push_cast
    field_simp
  rw [hsub, abs_div, abs_of_pos hpos, ← Int.cast_abs, Int.abs_eq_natAbs]
  rfl

theorem abs_value_sub (x : Binary e m) (n : Nat) :
    |x.value - n| = (x.distance n : ℚ) / one e m := by
  rw [distance, Int.natCast_mul]
  exact abs_div_sub (one_pos e m) x.scaled n

theorem abs_value_sub_le_iff {x y : Binary e m} :
    |x.value - n| ≤ |y.value - n| ↔ x.distance n ≤ y.distance n := by
  rw [abs_value_sub, abs_value_sub, div_le_div_iff_of_pos_right (one_cast_pos e m), Nat.cast_le]

theorem abs_value_sub_eq_iff {x y : Binary e m} :
    |y.value - n| = |x.value - n| ↔ y.distance n = x.distance n := by
  rw [abs_value_sub, abs_value_sub, div_left_inj' (one_cast_pos e m).ne', Nat.cast_inj]

/-! ## Floats around a number -/

/-- From a binade on there are only multiples of its last significand bit. -/
theorem Representable.dvd_or_lt (h : Representable m n) (c : Nat) :
    2 ^ c ∣ n ∨ n < 2 ^ (m + c) := by
  obtain ⟨s, j, rfl, hs⟩ := h
  rcases Nat.lt_or_ge j c with hj | hj
  · refine .inr ?_
    calc s * 2 ^ j < 2 ^ (m + 1) * 2 ^ j := Nat.mul_lt_mul_of_pos_right hs (Nat.two_pow_pos j)
      _ = 2 ^ (m + 1 + j) := (Nat.pow_add ..).symm
      _ ≤ 2 ^ (m + c) := Nat.pow_le_pow_right (by decide) (by omega)
  · exact .inl (Nat.dvd_mul_left_of_dvd (Nat.pow_dvd_pow 2 hj) s)

theorem scaled_dvd_or_lt (y : Binary e m) (c : Nat) :
    (∃ k : Int, y.scaled = k * (2 ^ c : Nat)) ∨ y.scaled < (2 ^ (m + c) : Nat) := by
  rcases y.representable_units.dvd_or_lt c with ⟨k, hk⟩ | hlt
  · refine .inl ⟨if y.sign then -k else k, ?_⟩
    unfold scaled
    cases y.sign <;> simp [hk, Int.mul_comm]
  · refine .inr ?_
    unfold scaled
    split <;> omega

/-- The last bit of the fraction field is that of the whole magnitude. -/
theorem fraction_mod_two (x : Binary e m) (hm : 0 < m) :
    x.fraction % 2 = x.magnitude.toNat % 2 :=
  Nat.mod_mod_of_dvd _ (Nat.dvd_of_pow_dvd hm (Nat.dvd_refl _))

/-- The bits to which a number is rounded, by its count of units and the last of these bits. -/
theorem significand_eq_units (m : Nat) (hbias : 0 < bias e) :
    significand m n =
      Rounding.nearestEven.divide false (n * one e m) (2 ^ (n.log2 + bias e - 1)) := by
  have hnum : n * one e m = n * 2 ^ m * 2 ^ (bias e - 1) := by
    rw [one, Nat.add_comm, Nat.pow_add, Nat.mul_assoc]
  have hden : 2 ^ (n.log2 + bias e - 1) = 2 ^ n.log2 * 2 ^ (bias e - 1) := by
    rw [← Nat.pow_add]
    congr 1
    omega
  rw [hnum, hden, Rounding.divide_nearestEven_mul_right _ _ _ (Nat.two_pow_pos _)]
  rfl

section

variable (he : 1 < e) (hn : n ≠ 0) (h : rounded m n < 2 ^ (bias e + 1))
include he hn h

theorem scaled_nearest : (⟨false, nearest e m n⟩ : Binary e m).scaled =
    (significand m n * 2 ^ (n.log2 + bias e - 1) : Nat) := by
  exact congrArg Int.ofNat (units_of_magnitude (x := ⟨false, nearest e m n⟩) (le_significand m hn)
    (significand_le m n) (toNat_nearest he hn h))

/-- A float that is not among the multiples lies below the binade, farther away than its first
float. -/
theorem distance_nearest_lt_of_lt {y : Binary e m}
    (hy : y.scaled < (2 ^ (m + (n.log2 + bias e - 1)) : Nat)) :
    (⟨false, nearest e m n⟩ : Binary e m).distance n < y.distance n := by
  have hbias := bias_pos he
  have hfirst := Rounding.natAbs_divide_sub_le (n := n * one e m) false
    (Nat.two_pow_pos (n.log2 + bias e - 1)) ((2 ^ m : Nat) : Int)
  rw [← significand_eq_units m hbias, ← Int.natCast_mul, ← Nat.pow_add] at hfirst
  have hbinade : 2 ^ (m + (n.log2 + bias e - 1)) ≤ n * one e m := by
    have hpow : 2 ^ (m + (n.log2 + bias e - 1)) = 2 ^ n.log2 * one e m := by
      rw [one, ← Nat.pow_add]
      congr 1
      omega
    rw [hpow]
    exact Nat.mul_le_mul_right _ (Nat.log2_self_le hn)
  unfold distance
  rw [scaled_nearest he hn h]
  omega

theorem distance_nearest_le (y : Binary e m) :
    (⟨false, nearest e m n⟩ : Binary e m).distance n ≤ y.distance n := by
  rcases y.scaled_dvd_or_lt (n.log2 + bias e - 1) with ⟨k, hk⟩ | hlt
  · unfold distance
    rw [scaled_nearest he hn h, hk, significand_eq_units m (bias_pos he)]
    exact Rounding.natAbs_divide_sub_le false (Nat.two_pow_pos _) k
  · exact Nat.le_of_lt (distance_nearest_lt_of_lt he hn h hlt)

theorem even_significand_of_distance_eq {y : Binary e m}
    (hne : y.scaled ≠ (⟨false, nearest e m n⟩ : Binary e m).scaled)
    (heq : y.distance n = (⟨false, nearest e m n⟩ : Binary e m).distance n) :
    significand m n % 2 = 0 := by
  rcases y.scaled_dvd_or_lt (n.log2 + bias e - 1) with ⟨k, hk⟩ | hlt
  · unfold distance at heq
    rw [scaled_nearest he hn h] at hne heq
    rw [hk] at hne heq
    rw [significand_eq_units m (bias_pos he)] at hne heq ⊢
    refine Rounding.even_divide_of_natAbs_eq false (Nat.two_pow_pos _) (fun hsame => ?_) heq
    rw [hsame, ← Int.natCast_mul] at hne
    exact hne rfl
  · have := distance_nearest_lt_of_lt he hn h hlt
    omega

/-- The last bit of the significand is the last one of the fraction field. -/
theorem fraction_nearest_mod_two (hm : 0 < m) :
    (⟨false, nearest e m n⟩ : Binary e m).fraction % 2 = significand m n % 2 := by
  have heven : 2 ∣ (n.log2 + bias e - 1) * 2 ^ m :=
    Nat.dvd_mul_left_of_dvd (Nat.dvd_of_pow_dvd hm (Nat.dvd_refl _)) _
  rw [fraction_mod_two _ hm, toNat_nearest he hn h]
  omega

end

theorem isNearestEven_nearest (he : 1 < e) (hm : 0 < m) (h : rounded m n < 2 ^ (bias e + 1)) :
    (⟨false, nearest e m n⟩ : Binary e m).IsNearestEven n := by
  refine ⟨isFinite_nearest he h false, fun y _ => ?_, fun y _ hne heq => ?_⟩
  · rw [abs_value_sub_le_iff]
    by_cases hn : n = 0
    · subst hn
      have hzero : (⟨false, nearest e m 0⟩ : Binary e m).distance 0 = 0 := by
        simp [distance, scaled, nearest, units_zero]
      omega
    · exact distance_nearest_le he hn h y
  · rw [abs_value_sub_eq_iff] at heq
    rw [ne_eq, value_eq_value_iff] at hne
    by_cases hn : n = 0
    · subst hn
      have hscaled : (⟨false, nearest e m 0⟩ : Binary e m).scaled = 0 := by
        simp [scaled, nearest, units_zero]
      unfold distance at heq
      omega
    · rw [fraction_nearest_mod_two he hn h hm]
      exact even_significand_of_distance_eq he hn h hne heq

/-! ## No other float -/

theorem scaled_eq_units {x : Binary e m} (h : 0 ≤ x.scaled) : x.scaled = x.units := by
  unfold scaled at h ⊢
  cases hsign : x.sign with
  | false => rfl
  | true =>
    rw [hsign] at h
    simp only [if_true] at h ⊢
    omega

/-- Between two floats of even significand lies another one. -/
theorem exists_between {x y : Binary e m} (hm : 0 < m) (hy : y.isFinite = true)
    (hx0 : 0 ≤ x.scaled) (hlt : x.scaled < y.scaled) (hxeven : x.fraction % 2 = 0)
    (hyeven : y.fraction % 2 = 0) :
    ∃ z : Binary e m, z.isFinite = true ∧ x.scaled < z.scaled ∧ z.scaled < y.scaled := by
  have hxunits := scaled_eq_units hx0
  have hyunits := scaled_eq_units (Int.le_trans hx0 (Int.le_of_lt hlt))
  have hmag : x.magnitude.toNat < y.magnitude.toNat := by
    rw [← units_lt_units_iff]
    omega
  rw [isFinite, decide_eq_true_eq, BitVec.lt_def] at hy
  have hinf := (infinity e m).isLt
  have hnext : (BitVec.ofNat (e + m) (x.magnitude.toNat + 1)).toNat = x.magnitude.toNat + 1 :=
    Nat.mod_eq_of_lt (by omega)
  -- the magnitude after that of `x` is odd
  have hparity : x.magnitude.toNat + 1 ≠ y.magnitude.toNat := by
    rw [fraction_mod_two _ hm] at hxeven hyeven
    omega
  refine ⟨⟨false, BitVec.ofNat _ (x.magnitude.toNat + 1)⟩, ?_, ?_, ?_⟩
  · rw [isFinite, decide_eq_true_eq, BitVec.lt_def, hnext]
    omega
  · rw [hxunits]
    refine Int.ofNat_lt.mpr (units_lt_units_iff.mpr ?_)
    rw [hnext]
    exact Nat.lt_succ_self _
  · rw [hyunits]
    refine Int.ofNat_lt.mpr (units_lt_units_iff.mpr ?_)
    rw [hnext]
    omega

theorem isFinite_zero (he : 0 < e) : (zero e m).isFinite = true := by
  have hfull : 0 < 2 ^ e - 1 := by
    have := Nat.one_lt_two_pow he.ne'
    omega
  have hpos := Nat.mul_pos hfull (Nat.two_pow_pos m)
  rw [isFinite, decide_eq_true_eq, BitVec.lt_def, toNat_infinity]
  simpa [zero] using hpos

theorem value_zero : (zero e m).value = 0 := by
  simp [value, scaled, zero, units_zero]

section

variable {x y : Binary e m} {v : ℚ}

theorem value_lt_value_iff : x.value < y.value ↔ x.scaled < y.scaled := by
  rw [value, value, div_lt_div_iff_of_pos_right (one_cast_pos e m), Int.cast_lt]

theorem scaled_nonneg_iff : 0 ≤ x.scaled ↔ 0 ≤ x.value := by
  rw [value, le_div_iff₀ (one_cast_pos e m), zero_mul, Int.cast_nonneg_iff]

/-- Zero is nearer to a number that is not negative than any negative float is. -/
theorem IsNearestEven.value_nonneg (he : 0 < e) (h : x.IsNearestEven v) (hv : 0 ≤ v) :
    0 ≤ x.value := by
  have hzero := h.nearest _ (isFinite_zero he)
  rw [value_zero, zero_sub, abs_neg, abs_of_nonneg hv] at hzero
  by_contra hneg
  have hdist := neg_le_abs (x.value - v)
  linarith

theorem IsNearestEven.not_lt (he : 0 < e) (hm : 0 < m) (hx : x.IsNearestEven v)
    (hy : y.IsNearestEven v) (hv : 0 ≤ v) : ¬ x.value < y.value := by
  intro hlt
  have hdist := le_antisymm (hx.nearest y hy.finite) (hy.nearest x hx.finite)
  have hxeven := hx.even_of_tie y hy.finite hlt.ne' hdist.symm
  have hyeven := hy.even_of_tie x hx.finite hlt.ne hdist
  obtain ⟨z, hz, hxz, hzy⟩ := exists_between hm hy.finite
    (scaled_nonneg_iff.mpr (hx.value_nonneg he hv)) (value_lt_value_iff.mp hlt) hxeven hyeven
  rw [← value_lt_value_iff] at hxz hzy
  -- the number lies halfway between `x` and `y`, so it is nearer to `z` than to both
  have hhalf : v - x.value = y.value - v := by
    rcases abs_eq_abs.mp hdist with heq | heq <;> linarith
  have hnear := hx.nearest z hz
  rw [abs_sub_comm, abs_of_pos (by linarith), le_abs] at hnear
  rcases hnear with hle | hle <;> linarith

/-- There is one nearest value. -/
theorem IsNearestEven.unique (he : 0 < e) (hm : 0 < m) (hx : x.IsNearestEven v)
    (hy : y.IsNearestEven v) (hv : 0 ≤ v) : x.value = y.value :=
  le_antisymm (le_of_not_gt (hy.not_lt he hm hx hv)) (le_of_not_gt (hx.not_lt he hm hy hv))

/-- Floats of one sign are told apart by their values. -/
theorem eq_of_value_eq (hsign : x.sign = y.sign) (h : x.value = y.value) : x = y := by
  rw [value_eq_value_iff] at h
  have hunits : x.units = y.units := by
    unfold scaled at h
    rw [hsign] at h
    split at h <;> omega
  cases x
  cases y
  cases hsign
  rw [mk.injEq]
  exact ⟨rfl, units_inj.mp hunits⟩

end

theorem value_nearest (he : 1 < e) (h : rounded m n < 2 ^ (bias e + 1)) :
    (⟨false, nearest e m n⟩ : Binary e m).value = rounded m n := by
  rw [value, scaled, units_nearest he h]
  push_cast
  exact mul_div_cancel_right₀ _ (one_cast_pos e m).ne'

end Binary

namespace Numeric

open Binary

section

variable (f : FloatType) (t : IntType) (x : BitVec t.width)

theorem isNearestEven_convert : (convert f t x).IsNearestEven x.toNat := by
  rw [convert_eq]
  exact isNearestEven_nearest f.one_lt_exponentBits f.fractionBits_pos (rounded_word_lt t f x)

theorem value_convert : (convert f t x).value = rounded f.fractionBits x.toNat := by
  rw [convert_eq]
  exact value_nearest f.one_lt_exponentBits (rounded_word_lt t f x)

end

/-- Each of the four conversions gives, for every word, the one float without a sign that is nearest
to the exact unsigned number, of two that are as near the one of even significand. Words of 64 bits
are rounded up to the next power of two from halfway between that power and the last float below it
on. -/
theorem conversion_is_correctly_rounded (f : FloatType) :
    (∀ (t : IntType) (x : BitVec t.width) (y : Binary f.exponentBits f.fractionBits),
      y = convert f t x ↔ y.sign = false ∧ y.IsNearestEven x.toNat) ∧
    (∀ x : BitVec 64, (convert f .i64 x).value = 2 ^ 64 ↔
      2 ^ 64 - 2 ^ (62 - f.fractionBits) ≤ x.toNat) := by
  constructor
  · intro t x y
    have hsign : (convert f t x).sign = false := by rw [convert_eq]
    constructor
    · rintro rfl
      exact ⟨hsign, isNearestEven_convert f t x⟩
    · rintro ⟨hy, hnearest⟩
      refine eq_of_value_eq (hy.trans hsign.symm) ?_
      exact hnearest.unique (by cases f <;> decide) (by cases f <;> decide)
        (isNearestEven_convert f t x) (Nat.cast_nonneg _)
  · intro x
    have hcarry := two_pow_le_rounded_iff (m := f.fractionBits) (w := 64)
      (by cases f <;> decide) x.isLt
    have hle := rounded_le_of_lt (m := f.fractionBits) x.isLt
    have hexp : 62 - f.fractionBits = 64 - f.fractionBits - 2 := by omega
    rw [hexp, ← hcarry, value_convert f .i64 x]
    constructor
    · intro heq
      have hnat : rounded f.fractionBits x.toNat = 2 ^ 64 := by exact_mod_cast heq
      exact Nat.le_of_eq hnat.symm
    · intro hge
      exact_mod_cast Nat.le_antisymm hle hge

-- halfway between two floats, the one with the even significand, below and above
example : convert .f32 .i64 0x8000008000000000#64 = .ofBits 0x5F000000#32 ∧
    convert .f32 .i64 0x8000018000000000#64 = .ofBits 0x5F000002#32 :=
  ⟨rfl, rfl⟩

end Numeric
end WasmHost
