import WasmHost.Binary.Rounding

/-!
# WasmHost.Binary.Lemmas

The fields of a float as numbers, and the laws of rounding a quotient.

* `magnitude_eq`: exponent and fraction fields make up the magnitude.
* `toNat_infinity`: infinity lies above every magnitude whose exponent field is not full.
* `isNaN_iff_fields`, `isInfinite_iff_fields`, `isCanonicalNaN_iff_fields`: what is no number, by
  its fields.
* `getLsbD_toBits`, `getLsbD_infinity`, `getLsbD_quietBit`: single bits.
* `Rounding.divide_exact`: a quotient without remainder is rounded to itself in every way.
* `Rounding.two_mul_divide_nearestEven`: rounding to nearest is off by half a unit at most.
-/

namespace WasmHost

namespace Rounding

theorem divide_exact (r : Rounding) (negative : Bool) (n d : Nat) (hd : 0 < d) (h : n % d = 0) :
    r.divide negative n d = n / d := by
  have hd' : d ≠ 0 := by omega
  cases r <;> simp [divide, away, h, hd'.symm]

theorem divide_towardZero (negative : Bool) (n d : Nat) :
    towardZero.divide negative n d = n / d := by
  simp [divide, away]

theorem le_divide (r : Rounding) (negative : Bool) (n d : Nat) :
    n / d ≤ r.divide negative n d := by
  unfold divide
  omega

theorem divide_le (r : Rounding) (negative : Bool) (n d : Nat) :
    r.divide negative n d ≤ n / d + 1 := by
  unfold divide
  have := Bool.toNat_le (r.away negative n d)
  omega

/-- Rounding to nearest is off by half a unit at most, in either direction. -/
theorem two_mul_divide_nearestEven (negative : Bool) (n d : Nat) (hd : 0 < d) :
    2 * n ≤ d * (2 * nearestEven.divide negative n d + 1) ∧
      d * (2 * nearestEven.divide negative n d) ≤ 2 * n + d := by
  have hn := Nat.div_add_mod n d
  have hlt := Nat.mod_lt n hd
  unfold divide
  cases ha : nearestEven.away negative n d
  · simp only [away, Bool.or_eq_false_iff, decide_eq_false_iff_not] at ha
    have h1 := ha.1
    simp only [Bool.toNat_false, Nat.add_zero, Nat.mul_add, Nat.mul_one, Nat.mul_left_comm d 2]
    omega
  · simp only [away, Bool.or_eq_true, decide_eq_true_eq, Bool.and_eq_true, beq_iff_eq] at ha
    simp only [Bool.toNat_true, Nat.mul_add, Nat.mul_one, Nat.mul_left_comm d 2]
    omega

end Rounding

namespace Binary

variable {e m : Nat}

theorem toNat_infinity (e m : Nat) : (infinity e m).toNat = (2 ^ e - 1) * 2 ^ m := by
  simp [infinity, BitVec.toNat_append, Nat.shiftLeft_eq]

theorem magnitude_eq (x : Binary e m) :
    x.magnitude.toNat = x.exponent * 2 ^ m + x.fraction := by
  unfold exponent fraction
  have := Nat.div_add_mod x.magnitude.toNat (2 ^ m)
  rw [Nat.mul_comm] at this
  exact this.symm

theorem fraction_lt (x : Binary e m) : x.fraction < 2 ^ m :=
  Nat.mod_lt _ (Nat.two_pow_pos m)

theorem exponent_lt (x : Binary e m) : x.exponent < 2 ^ e := by
  unfold exponent
  rw [Nat.div_lt_iff_lt_mul (Nat.two_pow_pos m), ← Nat.pow_add]
  exact x.magnitude.isLt

theorem exponent_of_magnitude {x : Binary e m} {k f : Nat} (hf : f < 2 ^ m)
    (h : x.magnitude.toNat = k * 2 ^ m + f) : x.exponent = k := by
  unfold exponent
  rw [h, Nat.add_comm, Nat.add_mul_div_right _ _ (Nat.two_pow_pos m), Nat.div_eq_of_lt hf,
    Nat.zero_add]

theorem fraction_of_magnitude {x : Binary e m} {k f : Nat} (hf : f < 2 ^ m)
    (h : x.magnitude.toNat = k * 2 ^ m + f) : x.fraction = f := by
  unfold fraction
  rw [h, Nat.add_comm, Nat.add_mul_mod_self_right, Nat.mod_eq_of_lt hf]

theorem magnitude_iff_fields {x : Binary e m} {k f : Nat} (hf : f < 2 ^ m) :
    x.magnitude.toNat = k * 2 ^ m + f ↔ x.exponent = k ∧ x.fraction = f := by
  constructor
  · intro h
    exact ⟨exponent_of_magnitude hf h, fraction_of_magnitude hf h⟩
  · rintro ⟨rfl, rfl⟩
    exact x.magnitude_eq

theorem eq_of_fields {x y : Binary e m} (hsign : x.sign = y.sign) (hexp : x.exponent = y.exponent)
    (hfrac : x.fraction = y.fraction) : x = y := by
  have hmagnitude : x.magnitude = y.magnitude := by
    apply BitVec.eq_of_toNat_eq
    rw [magnitude_eq, magnitude_eq, hexp, hfrac]
  cases x
  cases y
  cases hsign
  cases hmagnitude
  rfl

theorem isNaN_iff (x : Binary e m) :
    x.isNaN = true ↔ (infinity e m).toNat < x.magnitude.toNat := by
  simp [isNaN, BitVec.lt_def]

theorem isInfinite_iff (x : Binary e m) :
    x.isInfinite = true ↔ x.magnitude.toNat = (infinity e m).toNat := by
  simp [isInfinite, BitVec.toNat_inj]

/-- A NaN has a full exponent field and some fraction. -/
theorem isNaN_iff_fields (x : Binary e m) :
    x.isNaN = true ↔ x.exponent = 2 ^ e - 1 ∧ x.fraction ≠ 0 := by
  have hexp := x.exponent_lt
  have hfrac := x.fraction_lt
  rw [isNaN_iff, toNat_infinity, magnitude_eq]
  by_cases hfull : x.exponent = 2 ^ e - 1
  · rw [hfull]
    omega
  · have hstep : (x.exponent + 1) * 2 ^ m ≤ (2 ^ e - 1) * 2 ^ m :=
      Nat.mul_le_mul_right _ (by omega)
    rw [Nat.add_mul, Nat.one_mul] at hstep
    simp only [hfull, false_and, iff_false]
    omega

theorem isInfinite_iff_fields (x : Binary e m) :
    x.isInfinite = true ↔ x.exponent = 2 ^ e - 1 ∧ x.fraction = 0 := by
  rw [isInfinite_iff, toNat_infinity]
  exact magnitude_iff_fields (Nat.two_pow_pos m)

theorem toNat_canonicalNaN (hm : 0 < m) :
    (canonicalNaN e m).toNat = (2 ^ e - 1) * 2 ^ m + 2 ^ (m - 1) := by
  have hquiet : 2 ^ (m - 1) < 2 ^ (e + m) := Nat.pow_lt_pow_right (by decide) (by omega)
  have hfraction : 2 ^ (m - 1) < 2 ^ m := Nat.pow_lt_pow_right (by decide) (by omega)
  rw [canonicalNaN, BitVec.toNat_or, toNat_infinity, quietBit, BitVec.toNat_twoPow,
    Nat.mod_eq_of_lt hquiet, ← Nat.shiftLeft_eq, Nat.shiftLeft_add_eq_or_of_lt hfraction]

theorem isCanonicalNaN_iff_fields (hm : 0 < m) (x : Binary e m) :
    x.isCanonicalNaN = true ↔ x.exponent = 2 ^ e - 1 ∧ x.fraction = 2 ^ (m - 1) := by
  have hfraction : 2 ^ (m - 1) < 2 ^ m := Nat.pow_lt_pow_right (by decide) (by omega)
  rw [isCanonicalNaN, beq_iff_eq, ← BitVec.toNat_inj, toNat_canonicalNaN hm]
  exact magnitude_iff_fields hfraction

/-! ## Single bits -/

theorem getLsbD_toBits (x : Binary e m) (i : Nat) :
    x.toBits.getLsbD i = if i = e + m then x.sign else x.magnitude.getLsbD i := by
  rw [toBits, BitVec.getLsbD_cons]

theorem getLsbD_infinity (i : Nat) :
    (infinity e m).getLsbD i = (decide (m ≤ i) && decide (i < e + m)) := by
  rw [infinity, BitVec.getLsbD_append]
  by_cases hi : i < m
  · simp [hi, show ¬ m ≤ i by omega]
  · by_cases hw : i < e + m
    · simp [hi, hw, show i - m < e by omega, show m ≤ i by omega]
    · simp [hi, hw, show ¬ i - m < e by omega]

theorem getLsbD_quietBit (hm : 0 < m) (i : Nat) :
    (quietBit e m).getLsbD i = decide (i = m - 1) := by
  rw [quietBit, BitVec.getLsbD_twoPow]
  simp [show m - 1 < e + m by omega, eq_comm]

/-- Quieting touches neither the sign nor what follows the quiet bit, and does nothing twice. -/
theorem quiet_quiet (x : Binary e m) : x.quiet.quiet = x.quiet := by
  simp [quiet, BitVec.or_assoc]

end Binary

/-! ## The two formats -/

namespace FloatType

theorem le_bias (f : FloatType) : 127 ≤ Binary.bias f.exponentBits := by cases f <;> decide

theorem fractionBits_le_bias (f : FloatType) : f.fractionBits ≤ Binary.bias f.exponentBits := by
  cases f <;> decide

end FloatType

end WasmHost
