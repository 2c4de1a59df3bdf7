import WasmHost.Binary.Lemmas
import WasmHost.Binary.Order

/-!
# WasmHost.Proofs.Binary.Units

Floats as whole numbers of least positive values. Counted this way every float is a significand of
`m + 1` bits times a power of two, and the count grows with the magnitude. So a magnitude is known
by its count, and comparing floats is comparing integers.

* `units_of_magnitude`: the count, from a significand and an exponent.
* `units_lt_units`, `units_inj`: the count grows with the magnitude.
* `representable_units`: a count is a short significand times a power of two.
* `lt_iff`, `le_iff`: comparisons, by the counts under their signs.
-/

namespace WasmHost
namespace Binary

variable {e m : Nat}

/-- A short significand times a power of two: `m` bits and one in front of them. -/
def Representable (m n : Nat) : Prop := ∃ s j, n = s * 2 ^ j ∧ s < 2 ^ (m + 1)

/-- The value of a float, counted in least positive values. An infinity counts like the first power
of two that is no float. -/
def scaled (x : Binary e m) : Int := if x.sign then -(x.units : Int) else (x.units : Int)

/-! ## The count of a magnitude -/

/-- A significand above its exponent. One that is as large as the next power of two counts as the
first one under the next exponent. -/
theorem units_of_magnitude {x : Binary e m} {k s : Nat} (hlow : 2 ^ m ≤ s) (hhigh : s ≤ 2 ^ (m + 1))
    (h : x.magnitude.toNat = k * 2 ^ m + s) : x.units = s * 2 ^ k := by
  rw [Nat.pow_succ] at hhigh
  by_cases hs : s < 2 ^ m * 2
  · have hmag : x.magnitude.toNat = (k + 1) * 2 ^ m + (s - 2 ^ m) := by
      rw [h, Nat.add_mul]
      omega
    have hf : s - 2 ^ m < 2 ^ m := by omega
    unfold units
    rw [exponent_of_magnitude hf hmag, fraction_of_magnitude hf hmag, if_neg (by omega),
      Nat.add_sub_cancel, Nat.add_sub_cancel' hlow]
  · have hmag : x.magnitude.toNat = (k + 2) * 2 ^ m + 0 := by
      rw [h, Nat.add_mul]
      omega
    have hf := Nat.two_pow_pos m
    unfold units
    rw [exponent_of_magnitude hf hmag, fraction_of_magnitude hf hmag, if_neg (by omega)]
    have hs' : s = 2 ^ m * 2 := by omega
    have hk : k + 2 - 1 = k + 1 := by omega
    rw [hs', hk, Nat.add_zero, Nat.pow_succ, Nat.mul_assoc, Nat.mul_comm 2]

theorem units_of_exponent_eq_zero {x : Binary e m} (h : x.exponent = 0) :
    x.units = x.fraction := if_pos h

theorem units_of_exponent_ne_zero {x : Binary e m} (h : x.exponent ≠ 0) :
    x.units = (2 ^ m + x.fraction) * 2 ^ (x.exponent - 1) := if_neg h

/-- What the exponent says about the count: it is below the next power of two. -/
theorem units_lt (x : Binary e m) : x.units < 2 ^ (m + x.exponent) := by
  have hf := x.fraction_lt
  by_cases h : x.exponent = 0
  · rw [units_of_exponent_eq_zero h, h]
    exact hf
  · rw [units_of_exponent_ne_zero h]
    have hpow : 2 ^ (m + x.exponent) = (2 ^ m + 2 ^ m) * 2 ^ (x.exponent - 1) := by
      rw [← Nat.mul_two, ← Nat.pow_succ, ← Nat.pow_add]
      congr 1
      omega
    rw [hpow]
    exact Nat.mul_lt_mul_of_pos_right (by omega) (Nat.two_pow_pos _)

theorem le_units {x : Binary e m} (h : x.exponent ≠ 0) : 2 ^ (m + x.exponent - 1) ≤ x.units := by
  rw [units_of_exponent_ne_zero h]
  have hpow : 2 ^ (m + x.exponent - 1) = 2 ^ m * 2 ^ (x.exponent - 1) := by
    rw [← Nat.pow_add]
    congr 1
    omega
  rw [hpow]
  exact Nat.mul_le_mul_right _ (Nat.le_add_right _ _)

theorem units_lt_units {x y : Binary e m} (h : x.magnitude.toNat < y.magnitude.toNat) :
    x.units < y.units := by
  have hx := x.fraction_lt
  have hy := y.fraction_lt
  rw [magnitude_eq, magnitude_eq] at h
  by_cases heq : x.exponent = y.exponent
  · rw [heq] at h
    by_cases hzero : y.exponent = 0
    · rw [units_of_exponent_eq_zero hzero, units_of_exponent_eq_zero (heq.trans hzero)]
      omega
    · rw [units_of_exponent_ne_zero hzero, units_of_exponent_ne_zero (heq ▸ hzero), heq]
      exact Nat.mul_lt_mul_of_pos_right (by omega) (Nat.two_pow_pos _)
  -- below a float of a greater exponent the whole binade lies below it
  · have hlt : x.exponent < y.exponent := by
      refine Nat.lt_of_not_le fun hle => ?_
      have hstep : (y.exponent + 1) * 2 ^ m ≤ x.exponent * 2 ^ m :=
        Nat.mul_le_mul_right _ (by omega)
      rw [Nat.add_mul, Nat.one_mul] at hstep
      omega
    calc x.units < 2 ^ (m + x.exponent) := x.units_lt
      _ ≤ 2 ^ (m + y.exponent - 1) := Nat.pow_le_pow_right (by decide) (by omega)
      _ ≤ y.units := le_units (by omega)

theorem units_lt_units_iff {x y : Binary e m} :
    x.units < y.units ↔ x.magnitude.toNat < y.magnitude.toNat := by
  constructor
  · intro h
    refine Nat.lt_of_not_le fun hle => ?_
    rcases Nat.lt_or_eq_of_le hle with hlt | heq
    · exact Nat.lt_asymm h (units_lt_units hlt)
    · have hsame : y.units = x.units := by
        unfold units exponent fraction
        rw [heq]
      omega
  · exact units_lt_units

theorem units_inj {x y : Binary e m} : x.units = y.units ↔ x.magnitude = y.magnitude := by
  have hlt := units_lt_units_iff (x := x) (y := y)
  have hgt := units_lt_units_iff (x := y) (y := x)
  rw [← BitVec.toNat_inj]
  omega

theorem units_zero (s : Bool) : (⟨s, 0#(e + m)⟩ : Binary e m).units = 0 := by
  simp [units, exponent, fraction]

/-! ## Representable numbers -/

theorem representable_of_lt {n : Nat} (h : n < 2 ^ (m + 1)) : Representable m n :=
  ⟨n, 0, by simp, h⟩

theorem representable_units (x : Binary e m) : Representable m x.units := by
  have hf := x.fraction_lt
  by_cases h : x.exponent = 0
  · rw [units_of_exponent_eq_zero h]
    refine representable_of_lt ?_
    rw [Nat.pow_succ]
    omega
  · refine ⟨2 ^ m + x.fraction, x.exponent - 1, units_of_exponent_ne_zero h, ?_⟩
    rw [Nat.pow_succ]
    omega

theorem Representable.mul_two_pow {n : Nat} (h : Representable m n) (c : Nat) :
    Representable m (n * 2 ^ c) := by
  obtain ⟨s, j, rfl, hs⟩ := h
  exact ⟨s, j + c, by rw [Nat.pow_add, Nat.mul_assoc], hs⟩

/-- The whole part is representable too: it is either all of the number or short. -/
theorem Representable.div_two_pow {n : Nat} (h : Representable m n) (c : Nat) :
    Representable m (n / 2 ^ c) := by
  obtain ⟨s, j, rfl, hs⟩ := h
  rcases Nat.le_total c j with hle | hle
  · refine ⟨s, j - c, ?_, hs⟩
    rw [Nat.mul_div_assoc _ (Nat.pow_dvd_pow 2 hle), Nat.pow_div hle (by decide)]
  · refine representable_of_lt (Nat.lt_of_le_of_lt ?_ hs)
    refine Nat.div_le_of_le_mul ?_
    rw [Nat.mul_comm (2 ^ c)]
    exact Nat.mul_le_mul_left _ (Nat.pow_le_pow_right (by decide) hle)

/-- Under its first bit a representable number has no more than `m` bits. -/
theorem Representable.two_pow_log2_dvd {n : Nat} (h : Representable m n) (hn : n ≠ 0) :
    2 ^ n.log2 ∣ n * 2 ^ m := by
  obtain ⟨s, j, heq, hs⟩ := h
  have hlog : n.log2 < m + 1 + j := by
    rw [Nat.log2_lt hn, heq, Nat.pow_add]
    exact Nat.mul_lt_mul_of_pos_right hs (Nat.two_pow_pos j)
  rw [heq, Nat.mul_assoc, ← Nat.pow_add, ← heq]
  exact Nat.dvd_mul_left_of_dvd (Nat.pow_dvd_pow 2 (by omega)) _

/-- From `m` bits behind the unit on, nothing but multiples of the unit is representable. -/
theorem Representable.succ_le {n k c : Nat} (h : Representable m n) (hk : m ≤ k)
    (hlt : 2 ^ k * 2 ^ c < n) : (2 ^ k + 1) * 2 ^ c ≤ n := by
  obtain ⟨s, j, rfl, hs⟩ := h
  rcases Nat.lt_or_ge j c with hj | hj
  · have hsmall : s * 2 ^ j < 2 ^ k * 2 ^ c := by
      calc s * 2 ^ j < 2 ^ (m + 1) * 2 ^ j := Nat.mul_lt_mul_of_pos_right hs (Nat.two_pow_pos j)
        _ = 2 ^ (m + 1 + j) := (Nat.pow_add ..).symm
        _ ≤ 2 ^ (k + c) := Nat.pow_le_pow_right (by decide) (by omega)
        _ = 2 ^ k * 2 ^ c := Nat.pow_add ..
    omega
  · have hfactor : s * 2 ^ j = s * 2 ^ (j - c) * 2 ^ c := by
      rw [Nat.mul_assoc, ← Nat.pow_add, Nat.sub_add_cancel hj]
    rw [hfactor] at hlt ⊢
    exact Nat.mul_le_mul_right _ (Nat.lt_of_mul_lt_mul_right hlt)

/-! ## Kinds of floats -/

theorem isNaN_of_isFinite {x : Binary e m} (h : x.isFinite = true) : x.isNaN = false := by
  rw [isFinite, decide_eq_true_eq, BitVec.lt_def] at h
  rw [isNaN, decide_eq_false_iff_not, BitVec.lt_def]
  omega

theorem isInfinite_of_isFinite {x : Binary e m} (h : x.isFinite = true) :
    x.isInfinite = false := by
  rw [isFinite, decide_eq_true_eq, BitVec.lt_def] at h
  rw [Bool.eq_false_iff, ne_eq, isInfinite_iff]
  omega

theorem isNaN_of_isInfinite {x : Binary e m} (h : x.isInfinite = true) : x.isNaN = false := by
  rw [isInfinite_iff] at h
  rw [Bool.eq_false_iff, ne_eq, isNaN_iff]
  omega

/-- A float is finite, infinite or a NaN. -/
theorem isFinite_or_isInfinite {x : Binary e m} (h : x.isNaN = false) :
    x.isFinite = true ∨ x.isInfinite = true := by
  rw [Bool.eq_false_iff, ne_eq, isNaN_iff] at h
  rw [isFinite, decide_eq_true_eq, BitVec.lt_def, isInfinite_iff]
  omega

/-! ## Comparisons -/

theorem key_lt_key_iff {x y : Binary e m} : x.key < y.key ↔ x.scaled < y.scaled := by
  have hlt := units_lt_units_iff (x := x) (y := y)
  have hgt := units_lt_units_iff (x := y) (y := x)
  have hx := units_lt_units_iff (x := ⟨x.sign, 0#(e + m)⟩) (y := x)
  have hy := units_lt_units_iff (x := ⟨y.sign, 0#(e + m)⟩) (y := y)
  rw [units_zero] at hx hy
  simp only [BitVec.toNat_ofNat, Nat.zero_mod] at hx hy
  unfold key scaled
  cases x.sign <;> cases y.sign <;> simp <;> omega

theorem lt_iff {x y : Binary e m} (hx : x.isNaN = false) (hy : y.isNaN = false) :
    x.lt y = true ↔ x.scaled < y.scaled := by
  rw [← key_lt_key_iff]
  simp [lt, hx, hy]

theorem le_iff {x y : Binary e m} (hx : x.isNaN = false) (hy : y.isNaN = false) :
    x.le y = true ↔ x.scaled ≤ y.scaled := by
  have hkey := key_lt_key_iff (x := y) (y := x)
  have hle : x.key ≤ y.key ↔ x.scaled ≤ y.scaled := by omega
  rw [← hle]
  simp [le, hx, hy]

end Binary
end WasmHost
