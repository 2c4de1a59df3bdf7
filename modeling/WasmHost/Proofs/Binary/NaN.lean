import WasmHost.Binary.Lemmas
import WasmHost.Numeric.Eval

/-!
# WasmHost.Proofs.Binary.NaN

What float operations do to a NaN. Minimum, maximum and the roundings answer their first NaN operand
made quiet; all else about it, and so every class of NaNs that a test asks for, is kept. The sign
operations change the sign bit and nothing else.

* `isNaN_quiet`, `isArithmeticNaN_quiet`, `isCanonicalNaN_quiet`: what the quiet bit does to a NaN.
* `isArithmeticNaN_of_isCanonicalNaN`, `isNaN_of_isArithmeticNaN`: the classes, one in the other.
* `propagatesNaN_of_first`: enough for an operation is what it does to its first NaN operand.
* `float_operations_keep_payloads`: all nine operations, in both formats.
-/

namespace WasmHost
namespace Binary

variable {e m : Nat}

/-- The result is a NaN exactly if an operand is, and then it is the first such operand with the
quiet bit set. So it is arithmetic, and canonical exactly if that operand is. -/
structure PropagatesNaN (operands : List (Binary e m)) (result : Binary e m) : Prop where
  isNaN_iff : result.isNaN = true ↔ ∃ x ∈ operands, x.isNaN = true
  bits : ∀ x, operands.find? isNaN = some x →
    ∀ i, result.toBits.getLsbD i = (x.toBits.getLsbD i || decide (i = m - 1))
  arithmetic : (∃ x ∈ operands, x.isNaN = true) → result.isArithmeticNaN = true
  canonical_iff : ∀ x, operands.find? isNaN = some x →
    (result.isCanonicalNaN = true ↔ x.isCanonicalNaN = true)
  canonical : (∃ x ∈ operands, x.isNaN = true) →
    (∀ x ∈ operands, x.isNaN = true → x.isCanonicalNaN = true) → result.isCanonicalNaN = true

/-! ## Quiet NaNs -/

section

variable {x : Binary e m}

/-- All exponent bits of a NaN are set. -/
theorem getLsbD_of_isNaN (h : x.isNaN = true) {i : Nat} (hm : m ≤ i) (hi : i < e + m) :
    x.magnitude.getLsbD i = true := by
  have hexp : x.magnitude.toNat / 2 ^ m = 2 ^ e - 1 := ((isNaN_iff_fields x).mp h).1
  have hbit : (x.magnitude.toNat / 2 ^ m).testBit (i - m) = x.magnitude.getLsbD i := by
    rw [Nat.testBit_div_two_pow, Nat.sub_add_cancel hm]
    rfl
  rw [← hbit, hexp, Nat.testBit_two_pow_sub_one]
  simp
  omega

theorem magnitude_ne_infinity_of_isNaN (h : x.isNaN = true) : x.magnitude ≠ infinity e m := by
  intro heq
  have hlow := (isNaN_iff x).mp h
  rw [heq] at hlow
  exact Nat.lt_irrefl _ hlow

theorem isNaN_quiet (h : x.isNaN = true) : x.quiet.isNaN = true := by
  rw [isNaN_iff] at h ⊢
  refine Nat.lt_of_lt_of_le h ?_
  rw [quiet, BitVec.toNat_or]
  exact Nat.left_le_or

theorem getLsbD_toBits_quiet (hm : 0 < m) (x : Binary e m) (i : Nat) :
    x.quiet.toBits.getLsbD i = (x.toBits.getLsbD i || decide (i = m - 1)) := by
  rw [getLsbD_toBits, getLsbD_toBits]
  by_cases hi : i = e + m
  · simp [hi, quiet, show e + m ≠ m - 1 by omega]
  · simp [hi, quiet, BitVec.getLsbD_or, getLsbD_quietBit hm]

theorem isArithmeticNaN_quiet (h : x.isNaN = true) : x.quiet.isArithmeticNaN = true := by
  rw [isArithmeticNaN, beq_iff_eq]
  apply BitVec.eq_of_getLsbD_eq
  intro i hi
  simp only [quiet, canonicalNaN, BitVec.getLsbD_and, BitVec.getLsbD_or, getLsbD_infinity]
  by_cases hexp : m ≤ i
  · simp [getLsbD_of_isNaN h hexp hi, hexp, hi]
  · cases (quietBit e m).getLsbD i
    · simp [hexp]
    · simp

/-- A NaN is canonical or not, whether it is quieted or not: apart from the quiet bit a canonical
one has the bits of infinity, and no NaN is that. -/
theorem isCanonicalNaN_quiet (hm : 0 < m) (h : x.isNaN = true) :
    x.quiet.isCanonicalNaN = true ↔ x.isCanonicalNaN = true := by
  simp only [isCanonicalNaN, beq_iff_eq]
  constructor
  · intro heq
    have hbit : ∀ i, (x.magnitude.getLsbD i || decide (i = m - 1)) =
        ((infinity e m).getLsbD i || decide (i = m - 1)) := by
      intro i
      have hi := congrArg (BitVec.getLsbD · i) heq
      simpa only [quiet, canonicalNaN, BitVec.getLsbD_or, getLsbD_quietBit hm] using hi
    have hquiet : x.magnitude.getLsbD (m - 1) = true := by
      rw [← Bool.not_eq_false]
      intro hclear
      apply magnitude_ne_infinity_of_isNaN h
      apply BitVec.eq_of_getLsbD_eq
      intro i _
      by_cases hi : i = m - 1
      · rw [hi, hclear, getLsbD_infinity]
        simp
        omega
      · simpa [hi] using hbit i
    apply BitVec.eq_of_getLsbD_eq
    intro i _
    rw [canonicalNaN, BitVec.getLsbD_or, getLsbD_quietBit hm]
    by_cases hi : i = m - 1
    · simp [hi, hquiet]
    · simpa [hi] using hbit i
  · intro heq
    rw [quiet]
    simp [heq, canonicalNaN, BitVec.or_assoc]

/-! ## Classes of NaNs -/

theorem isArithmeticNaN_of_isCanonicalNaN (h : x.isCanonicalNaN = true) :
    x.isArithmeticNaN = true := by
  rw [isCanonicalNaN, beq_iff_eq] at h
  rw [isArithmeticNaN, h, BitVec.and_self]
  exact beq_self_eq_true _

theorem infinity_lt_canonicalNaN (hm : 0 < m) :
    (infinity e m).toNat < (canonicalNaN e m).toNat := by
  have hle : (infinity e m).toNat ≤ (canonicalNaN e m).toNat := by
    rw [canonicalNaN, BitVec.toNat_or]
    exact Nat.left_le_or
  refine Nat.lt_of_le_of_ne hle ?_
  intro heq
  -- infinity lacks the quiet bit
  have hbit := congrArg (BitVec.getLsbD · (m - 1)) (BitVec.eq_of_toNat_eq heq)
  simp [canonicalNaN, getLsbD_infinity, getLsbD_quietBit hm] at hbit
  omega

theorem isNaN_of_isArithmeticNaN (hm : 0 < m) (h : x.isArithmeticNaN = true) :
    x.isNaN = true := by
  rw [isArithmeticNaN, beq_iff_eq] at h
  have hle : (canonicalNaN e m).toNat ≤ x.magnitude.toNat := by
    rw [← h, BitVec.toNat_and]
    exact Nat.and_le_left
  rw [isNaN_iff]
  exact Nat.lt_of_lt_of_le (infinity_lt_canonicalNaN hm) hle

end

/-! ## Operations that answer a NaN quieted -/

/-- For an operation to propagate NaNs it is enough that it answers its first NaN operand quieted,
and no NaN without one. -/
theorem propagatesNaN_of_first (hm : 0 < m) {operands : List (Binary e m)} {result : Binary e m}
    (hsome : ∀ x, operands.find? isNaN = some x → result = x.quiet)
    (hnone : operands.find? isNaN = none → result.isNaN = false) :
    PropagatesNaN operands result := by
  have hfound : (∃ x ∈ operands, x.isNaN = true) ↔ ∃ x, operands.find? isNaN = some x := by
    rw [← Option.isSome_iff_exists, List.find?_isSome]
  refine ⟨?_, ?_, ?_, ?_, ?_⟩
  · rw [hfound]
    cases hfirst : operands.find? isNaN with
    | none => simp [hnone hfirst]
    | some x => simp [hsome x hfirst, isNaN_quiet (List.find?_some hfirst)]
  · intro x hfirst i
    rw [hsome x hfirst]
    exact getLsbD_toBits_quiet hm x i
  · intro hex
    obtain ⟨x, hfirst⟩ := hfound.mp hex
    rw [hsome x hfirst]
    exact isArithmeticNaN_quiet (List.find?_some hfirst)
  · intro x hfirst
    rw [hsome x hfirst]
    exact isCanonicalNaN_quiet hm (List.find?_some hfirst)
  · intro hex hall
    obtain ⟨x, hfirst⟩ := hfound.mp hex
    have hx : x.isNaN = true := List.find?_some hfirst
    rw [hsome x hfirst, isCanonicalNaN_quiet hm hx]
    exact hall x (List.mem_of_find?_eq_some hfirst) hx

theorem propagatesNaN_choice (hm : 0 < m) (x y z : Binary e m) (hz : z = x ∨ z = y) :
    PropagatesNaN [x, y]
      (if x.isNaN then x.quiet else if y.isNaN then y.quiet else z) := by
  cases hx : x.isNaN with
  | true => exact propagatesNaN_of_first hm (by simp [hx]) (by simp [hx])
  | false =>
    cases hy : y.isNaN with
    | true => exact propagatesNaN_of_first hm (by simp [hx, hy]) (by simp [hx, hy])
    | false =>
      refine propagatesNaN_of_first hm (by simp [hx, hy]) (fun _ => ?_)
      rcases hz with rfl | rfl
      · exact hx
      · exact hy

theorem propagatesNaN_min (hm : 0 < m) (x y : Binary e m) : PropagatesNaN [x, y] (x.min y) := by
  refine propagatesNaN_choice hm x y _ ?_
  split
  · exact .inl rfl
  · exact .inr rfl

theorem propagatesNaN_max (hm : 0 < m) (x y : Binary e m) : PropagatesNaN [x, y] (x.max y) := by
  refine propagatesNaN_choice hm x y _ ?_
  split
  · exact .inr rfl
  · exact .inl rfl

/-- A whole number is rounded to infinity at most. -/
theorem toNat_nearest_le (e m n : Nat) : (nearest e m n).toNat ≤ (infinity e m).toNat := by
  unfold nearest
  split
  · simp
  · rw [BitVec.toNat_ofNat]
    exact Nat.le_trans (Nat.mod_le _ _) (Nat.min_le_right _ _)

theorem propagatesNaN_round (hm : 0 < m) (r : Rounding) (x : Binary e m) :
    PropagatesNaN [x] (x.round r) := by
  unfold round
  cases hx : x.isNaN with
  | true => exact propagatesNaN_of_first hm (by simp [hx]) (by simp [hx])
  | false =>
    refine propagatesNaN_of_first hm (by simp [hx]) (fun _ => ?_)
    simp only [Bool.false_eq_true, if_false]
    split
    · exact hx
    · rw [Bool.eq_false_iff, ne_eq, isNaN_iff]
      exact Nat.not_lt.mpr (toNat_nearest_le e m _)

end Binary

namespace Numeric

/-- In both formats and for all operands: minimum, maximum and the four roundings propagate NaNs,
and absolute value, negation and copying a sign clear, flip and replace the sign bit and keep every
other bit of their first operand, whatever it is. -/
theorem float_operations_keep_payloads (t : FloatType) :
    (∀ x y : Binary t.exponentBits t.fractionBits,
      Binary.PropagatesNaN [x, y] (FloatBinaryOp.min.eval x y) ∧
      Binary.PropagatesNaN [x, y] (FloatBinaryOp.max.eval x y)) ∧
    (∀ x : Binary t.exponentBits t.fractionBits,
      Binary.PropagatesNaN [x] (FloatUnaryOp.floor.eval x) ∧
      Binary.PropagatesNaN [x] (FloatUnaryOp.ceil.eval x) ∧
      Binary.PropagatesNaN [x] (FloatUnaryOp.trunc.eval x) ∧
      Binary.PropagatesNaN [x] (FloatUnaryOp.nearest.eval x)) ∧
    (∀ (x : Binary t.exponentBits t.fractionBits) (i : Nat),
      (FloatUnaryOp.abs.eval x).toBits.getLsbD i =
        if i = t.exponentBits + t.fractionBits then false else x.toBits.getLsbD i) ∧
    (∀ (x : Binary t.exponentBits t.fractionBits) (i : Nat),
      (FloatUnaryOp.neg.eval x).toBits.getLsbD i =
        if i = t.exponentBits + t.fractionBits then !x.toBits.getLsbD i
        else x.toBits.getLsbD i) ∧
    (∀ (x y : Binary t.exponentBits t.fractionBits) (i : Nat),
      (FloatBinaryOp.copysign.eval x y).toBits.getLsbD i =
        if i = t.exponentBits + t.fractionBits then y.toBits.getLsbD i
        else x.toBits.getLsbD i) := by
  have hm : 0 < t.fractionBits := by cases t <;> decide
  refine ⟨?_, ?_, ?_, ?_, ?_⟩
  · intro x y
    exact ⟨Binary.propagatesNaN_min hm x y, Binary.propagatesNaN_max hm x y⟩
  · intro x
    exact ⟨Binary.propagatesNaN_round hm .down x, Binary.propagatesNaN_round hm .up x,
      Binary.propagatesNaN_round hm .towardZero x, Binary.propagatesNaN_round hm .nearestEven x⟩
  · intro x i
    rw [Binary.getLsbD_toBits, Binary.getLsbD_toBits]
    by_cases hi : i = t.exponentBits + t.fractionBits
    · rw [if_pos hi, if_pos hi]
      rfl
    · rw [if_neg hi, if_neg hi, if_neg hi]
      rfl
  · intro x i
    rw [Binary.getLsbD_toBits, Binary.getLsbD_toBits]
    by_cases hi : i = t.exponentBits + t.fractionBits
    · rw [if_pos hi, if_pos hi, if_pos hi]
      rfl
    · rw [if_neg hi, if_neg hi, if_neg hi]
      rfl
  · intro x y i
    rw [Binary.getLsbD_toBits, Binary.getLsbD_toBits, Binary.getLsbD_toBits]
    by_cases hi : i = t.exponentBits + t.fractionBits
    · rw [if_pos hi, if_pos hi, if_pos hi]
      rfl
    · rw [if_neg hi, if_neg hi, if_neg hi]
      rfl

end Numeric
end WasmHost
