import WasmHost.Proofs.Binary.NaN
import WasmHost.Proofs.Binary.Nearest

/-!
# WasmHost.Proofs.Binary.Whole

Floats and whole numbers. A float is compared with a whole number by its count of units, and cut to
one by division. What a float is cut to is itself a float.

* `lt_ofInt_iff` and its like: comparisons with whole numbers.
* `truncated_eq`: cutting toward zero, by the count.
* `truncated_nearest`: the nearest float of a whole number, cut again.
* `truncated_trunc`: rounding toward zero first changes nothing.
-/

namespace WasmHost

/-! ## Whole parts -/

theorem tdiv_lt_iff {v unit h : Int} (hunit : 0 < unit) (hh : 0 < h) :
    v.tdiv unit < h ↔ v < h * unit := by
  rcases Int.le_total 0 v with hv | hv
  · rw [Int.tdiv_eq_ediv_of_nonneg hv]
    exact Int.ediv_lt_iff_lt_mul hunit
  · have hneg : v.tdiv unit ≤ 0 := by
      have hpos := Int.tdiv_nonneg (Int.neg_nonneg_of_nonpos hv) (Int.le_of_lt hunit)
      rw [Int.neg_tdiv] at hpos
      omega
    have hbound := Int.mul_pos hh hunit
    omega

theorem lt_tdiv_iff {v unit l : Int} (hunit : 0 < unit) (hl : l < 0) :
    l < v.tdiv unit ↔ l * unit < v := by
  have h := tdiv_lt_iff (v := -v) hunit (Int.neg_pos_of_neg hl)
  rw [Int.neg_tdiv, Int.neg_mul] at h
  omega

namespace Binary

variable {e m : Nat}

theorem one_pos (e m : Nat) : 0 < one e m := Nat.two_pow_pos _

theorem truncated_eq (x : Binary e m) : x.truncated = x.scaled.tdiv (one e m) := by
  unfold truncated scaled integral
  rw [Rounding.divide_towardZero]
  cases x.sign
  · simp
  · simp [Int.neg_tdiv]

/-! ## Whole numbers that are floats -/

/-- A whole number that is a float of the format. -/
structure IsFloat (e m : Nat) (n : Int) : Prop where
  representable : Representable m n.natAbs
  bounded : n.natAbs < 2 ^ (bias e + 1)

theorem isFloat_two_pow {k : Nat} (hk : k ≤ bias e) : IsFloat e m (2 ^ k : Nat) := by
  constructor
  · exact ⟨1, k, by rw [Int.natAbs_natCast, Nat.one_mul], Nat.one_lt_two_pow (by omega)⟩
  · rw [Int.natAbs_natCast]
    exact Nat.pow_lt_pow_right (by decide) (by omega)

theorem isFloat_of_natAbs_lt {n : Int} {k : Nat} (h : n.natAbs < 2 ^ k) (hm : k ≤ m + 1)
    (he : k ≤ bias e + 1) : IsFloat e m n := by
  constructor
  · exact representable_of_lt (Nat.lt_of_lt_of_le h (Nat.pow_le_pow_right (by decide) hm))
  · exact Nat.lt_of_lt_of_le h (Nat.pow_le_pow_right (by decide) he)

theorem IsFloat.neg {n : Int} (h : IsFloat e m n) : IsFloat e m (-n) := by
  constructor
  · rw [Int.natAbs_neg]
    exact h.representable
  · rw [Int.natAbs_neg]
    exact h.bounded

theorem IsFloat.rounded_lt {n : Int} (h : IsFloat e m n) :
    rounded m n.natAbs < 2 ^ (bias e + 1) := by
  rw [rounded_of_representable h.representable]
  exact h.bounded

section

variable (he : 1 < e)
include he

theorem isNaN_ofInt {n : Int} (h : IsFloat e m n) : (ofInt e m n).isNaN = false :=
  isNaN_of_isFinite (isFinite_nearest he h.rounded_lt _)

theorem scaled_ofInt {n : Int} (h : IsFloat e m n) : (ofInt e m n).scaled = n * one e m := by
  have hunits := units_nearest he h.rounded_lt (decide (n < 0))
  rw [rounded_of_representable h.representable] at hunits
  unfold scaled ofInt
  rw [hunits]
  by_cases hn : n < 0
  · simp only [hn, decide_true, if_true, Int.natCast_mul,
      Int.ofNat_natAbs_of_nonpos (Int.le_of_lt hn), Int.neg_mul, Int.neg_neg]
  · simp only [hn, decide_false, Bool.false_eq_true, if_false, Int.natCast_mul,
      Int.natAbs_of_nonneg (Int.not_lt.mp hn)]

variable {x : Binary e m} (hx : x.isNaN = false) {n : Int} (h : IsFloat e m n)
include hx h

theorem lt_ofInt_iff : x.lt (ofInt e m n) = true ↔ x.scaled < n * one e m := by
  rw [lt_iff hx (isNaN_ofInt he h), scaled_ofInt he h]

theorem ofInt_lt_iff : (ofInt e m n).lt x = true ↔ n * one e m < x.scaled := by
  rw [lt_iff (isNaN_ofInt he h) hx, scaled_ofInt he h]

theorem le_ofInt_iff : x.le (ofInt e m n) = true ↔ x.scaled ≤ n * one e m := by
  rw [le_iff hx (isNaN_ofInt he h), scaled_ofInt he h]

theorem ofInt_le_iff : (ofInt e m n).le x = true ↔ n * one e m ≤ x.scaled := by
  rw [le_iff (isNaN_ofInt he h) hx, scaled_ofInt he h]

end

/-- Between a power of two with no room for a fraction and the next whole number lies no float. -/
theorem neg_two_pow_le_scaled_iff (x : Binary e m) {k : Nat} (hk : m ≤ k) :
    -((2 ^ k : Nat) : Int) * one e m ≤ x.scaled ↔
      (-((2 ^ k : Nat) : Int) - 1) * one e m < x.scaled := by
  have hone := Int.natCast_pos.mpr (one_pos e m)
  have hgap : 2 ^ k * one e m < x.units → (2 ^ k + 1) * one e m ≤ x.units :=
    x.representable_units.succ_le hk
  rw [Int.sub_mul, Int.one_mul, Int.neg_mul]
  rw [Nat.add_mul, Nat.one_mul] at hgap
  generalize hbound : 2 ^ k * one e m = bound at hgap
  have hcast : ((2 ^ k : Nat) : Int) * (one e m : Int) = (bound : Int) := by
    rw [← hbound, Int.natCast_mul]
  rw [hcast]
  unfold scaled
  cases x.sign <;> simp <;> omega

/-! ## Cutting toward zero -/

theorem units_of_isInfinite (he : 1 < e) {x : Binary e m} (h : x.isInfinite = true) :
    x.units = 2 ^ (bias e + 1) * one e m := by
  have hbias := bias_pos he
  rw [isInfinite_iff, toNat_infinity_eq he, Nat.add_mul, Nat.one_mul] at h
  have hpow : 2 ^ m ≤ 2 ^ (m + 1) := Nat.pow_le_pow_right (by decide) (by omega)
  rw [units_of_magnitude (Nat.le_refl _) hpow h, one, ← Nat.pow_add, ← Nat.pow_add]
  congr 1
  omega

theorem units_lt_of_isFinite (he : 1 < e) {x : Binary e m} (h : x.isFinite = true) :
    x.units < 2 ^ (bias e + 1) * one e m := by
  have hinf : (⟨false, infinity e m⟩ : Binary e m).isInfinite = true := by simp [isInfinite]
  rw [← units_of_isInfinite he hinf, units_lt_units_iff]
  rw [isFinite, decide_eq_true_eq] at h
  exact h

/-- An infinity is cut to a number beyond all words. -/
theorem truncated_of_isInfinite (he : 1 < e) {x : Binary e m} (h : x.isInfinite = true) :
    x.truncated =
      if x.sign then -((2 ^ (bias e + 1) : Nat) : Int) else ((2 ^ (bias e + 1) : Nat) : Int) := by
  unfold truncated integral
  rw [Rounding.divide_towardZero, units_of_isInfinite he h, Nat.mul_div_cancel _ (one_pos e m)]

theorem integral_nearest (he : 1 < e) {n : Nat} (h : rounded m n < 2 ^ (bias e + 1)) (s : Bool) :
    (⟨s, nearest e m n⟩ : Binary e m).integral .towardZero = rounded m n := by
  unfold integral
  rw [Rounding.divide_towardZero, units_nearest he h, Nat.mul_div_cancel _ (one_pos e m)]

theorem truncated_nearest (he : 1 < e) {n : Nat} (h : rounded m n < 2 ^ (bias e + 1)) :
    (⟨false, nearest e m n⟩ : Binary e m).truncated = rounded m n := by
  unfold truncated
  rw [integral_nearest he h]
  rfl

/-- What a finite float is cut to is a float of the format. -/
theorem rounded_integral (he : 1 < e) {x : Binary e m} (h : x.isFinite = true) :
    rounded m (x.integral .towardZero) = x.integral .towardZero ∧
      x.integral .towardZero < 2 ^ (bias e + 1) := by
  unfold integral
  rw [Rounding.divide_towardZero]
  constructor
  · exact rounded_of_representable (x.representable_units.div_two_pow _)
  · rw [Nat.div_lt_iff_lt_mul (one_pos e m)]
    exact units_lt_of_isFinite he h

theorem round_of_isFinite (r : Rounding) {x : Binary e m} (h : x.isFinite = true) :
    x.round r = ⟨x.sign, nearest e m (x.integral r)⟩ := by
  simp [round, isNaN_of_isFinite h, isInfinite_of_isFinite h]

theorem round_of_isInfinite (r : Rounding) {x : Binary e m} (h : x.isInfinite = true) :
    x.round r = x := by
  simp [round, isNaN_of_isInfinite h, h]

theorem trunc_of_isFinite {x : Binary e m} (h : x.isFinite = true) :
    x.trunc = ⟨x.sign, nearest e m (x.integral .towardZero)⟩ :=
  round_of_isFinite .towardZero h

theorem trunc_of_isInfinite {x : Binary e m} (h : x.isInfinite = true) : x.trunc = x :=
  round_of_isInfinite .towardZero h

theorem isNaN_trunc (hm : 0 < m) (x : Binary e m) : x.trunc.isNaN = x.isNaN := by
  have h := (propagatesNaN_round hm .towardZero x).isNaN_iff
  simp only [List.mem_singleton, exists_eq_left] at h
  rw [Bool.eq_iff_iff]
  exact h

theorem truncated_trunc (he : 1 < e) {x : Binary e m} (h : x.isNaN = false) :
    x.trunc.truncated = x.truncated := by
  rcases isFinite_or_isInfinite h with hfin | hinf
  · obtain ⟨hself, hlt⟩ := rounded_integral he hfin
    rw [trunc_of_isFinite hfin]
    unfold truncated
    rw [integral_nearest he (by rw [hself]; exact hlt), hself]
  · rw [trunc_of_isInfinite hinf]

end Binary
end WasmHost
