import WasmHost.Proofs.Numeric.CorrectRounding
import WasmHost.Proofs.Numeric.ExactTruncation

/-!
# WasmHost.Proofs.Numeric.ExactRounding

Rounding of floats to whole numbers, by the rational numbers that they stand for. What a quotient is
rounded to is compared with all integers; and as either the quotient is whole or it is small, the
integer found is a float of the format, so the rounded float has exactly that value.

* `Rounding.roundsTo_divide`: a quotient is rounded to the integer that the way of rounding asks
  for.
* `Rounding.RoundsTo.unique`: there is no other such integer.
* `integral_isFloat`: that integer is a float of the format.
* `value_round`: so it is the value of the rounded float.
* `round_eq_self_iff`: the floats that stay as they are.
* `rounding_is_exact`: the four roundings, in both formats, for every float.
-/

namespace WasmHost

namespace Rounding

/-- The integer to which a number is rounded, told by comparison with all integers. -/
def RoundsTo (q : ℚ) (n : ℤ) : Rounding → Prop
  | .down => IsGreatest {k : ℤ | (k : ℚ) ≤ q} n
  | .up => IsLeast {k : ℤ | q ≤ k} n
  | .towardZero => n = WasmHost.towardZero q
  | .nearestEven => (∀ k : ℤ, |n - q| ≤ |k - q|) ∧ ∀ k : ℤ, k ≠ n → |k - q| = |n - q| → Even n

variable {n d : Nat}

/-- A number with its sign changed, or as it is. -/
def signed (negative : Bool) (n : ℤ) : ℤ := if negative then -n else n

theorem signed_signed (negative : Bool) (n : ℤ) : signed negative (signed negative n) = n := by
  cases negative with
  | false => rfl
  | true => exact Int.neg_neg n

/-! ## Quotients among the integers -/

section

variable (hd : 0 < d)
include hd

theorem cast_le_div_iff {k a : ℤ} : (k : ℚ) ≤ (a : ℚ) / d ↔ k * d ≤ a := by
  rw [le_div_iff₀ (Nat.cast_pos.mpr hd)]
  exact_mod_cast Iff.rfl

theorem div_le_cast_iff {k a : ℤ} : (a : ℚ) / d ≤ k ↔ a ≤ k * d := by
  rw [div_le_iff₀ (Nat.cast_pos.mpr hd)]
  exact_mod_cast Iff.rfl

theorem isGreatest_quotient (n : Nat) : IsGreatest {k : ℤ | k * d ≤ n} (n / d : Nat) := by
  constructor
  · rw [Set.mem_ofPred_eq]
    exact_mod_cast Nat.div_mul_le_self n d
  · intro k hk
    rw [Int.natCast_ediv]
    exact (Int.le_ediv_iff_mul_le (Int.natCast_pos.mpr hd)).mpr hk

/-- One more than the quotient, where there is a remainder. -/
theorem isLeast_ceiling (n : Nat) :
    IsLeast {k : ℤ | (n : ℤ) ≤ k * d} (n / d + (n % d != 0).toNat : Nat) := by
  have hdiv := Nat.div_add_mod n d
  rw [Nat.mul_comm] at hdiv
  by_cases hrem : n % d = 0
  · have hexact : (n : ℤ) = ((n / d : Nat) : ℤ) * d := by exact_mod_cast (by omega : n = n / d * d)
    simp only [hrem, bne_self_eq_false, Bool.toNat_false, Nat.add_zero]
    refine ⟨Int.le_of_eq hexact, fun k hk => ?_⟩
    rw [Set.mem_ofPred_eq, hexact] at hk
    exact Int.le_of_mul_le_mul_right hk (Int.natCast_pos.mpr hd)
  · have hbit : (n % d != 0).toNat = 1 := by simp [hrem]
    have hmod := Nat.mod_lt n hd
    rw [hbit]
    constructor
    · have hle : n ≤ (n / d + 1) * d := by
        rw [Nat.add_mul]
        omega
      rw [Set.mem_ofPred_eq]
      exact_mod_cast hle
    · intro k hk
      -- the multiple by the quotient itself stays below the number
      have hlt : ((n / d : Nat) : ℤ) * d < k * d := by
        refine Int.lt_of_lt_of_le ?_ hk
        exact_mod_cast (by omega : n / d * d < n)
      have hquot := Int.lt_of_mul_lt_mul_right hlt (Int.natCast_nonneg d)
      push_cast at hquot ⊢
      omega

omit hd in
theorem isGreatest_neg {a c : ℤ} (h : IsLeast {k : ℤ | a ≤ k * d} c) :
    IsGreatest {k : ℤ | k * d ≤ -a} (-c) := by
  obtain ⟨hmem, hleast⟩ := h
  rw [Set.mem_ofPred_eq] at hmem
  constructor
  · rw [Set.mem_ofPred_eq, Int.neg_mul]
    omega
  · intro k hk
    rw [Set.mem_ofPred_eq] at hk
    have hneg : -k ∈ {k : ℤ | a ≤ k * d} := by
      rw [Set.mem_ofPred_eq, Int.neg_mul]
      omega
    have hle := hleast hneg
    omega

omit hd in
theorem isLeast_neg {a c : ℤ} (h : IsGreatest {k : ℤ | k * d ≤ a} c) :
    IsLeast {k : ℤ | -a ≤ k * d} (-c) := by
  obtain ⟨hmem, hgreatest⟩ := h
  rw [Set.mem_ofPred_eq] at hmem
  constructor
  · rw [Set.mem_ofPred_eq, Int.neg_mul]
    omega
  · intro k hk
    rw [Set.mem_ofPred_eq] at hk
    have hneg : -k ∈ {k : ℤ | k * d ≤ a} := by
      rw [Set.mem_ofPred_eq, Int.neg_mul]
      omega
    have hle := hgreatest hneg
    omega

/-! ## What a quotient is rounded to -/

theorem roundsTo_down (negative : Bool) (n : Nat) :
    down.RoundsTo ((signed negative n : ℚ) / d) (signed negative (down.divide negative n d)) := by
  simp only [RoundsTo, cast_le_div_iff hd]
  cases negative with
  | false => exact isGreatest_quotient hd n
  | true => exact isGreatest_neg (isLeast_ceiling hd n)

theorem roundsTo_up (negative : Bool) (n : Nat) :
    up.RoundsTo ((signed negative n : ℚ) / d) (signed negative (up.divide negative n d)) := by
  simp only [RoundsTo, div_le_cast_iff hd]
  cases negative with
  | false => exact isLeast_ceiling hd n
  | true => exact isLeast_neg (isGreatest_quotient hd n)

theorem roundsTo_towardZero (negative : Bool) (n : Nat) :
    towardZero.RoundsTo ((signed negative n : ℚ) / d)
      (signed negative (towardZero.divide negative n d)) := by
  rw [RoundsTo, towardZero_div _ hd, divide_towardZero]
  cases negative with
  | false => rfl
  | true => exact (Int.neg_tdiv (a := n) (b := d)).symm

omit hd in
/-- The sign may be taken off both numbers, so distances are those from a natural number. -/
theorem natAbs_mul_sub_signed (negative : Bool) (n : Nat) (k : ℤ) :
    (k * d - signed negative n).natAbs = (signed negative k * d - n).natAbs := by
  cases negative with
  | false => rfl
  | true =>
    have hneg : signed true k * d - n = -(k * d - signed true n) := by
      simp only [signed, if_true]
      rw [Int.neg_mul]
      omega
    rw [hneg, Int.natAbs_neg]

theorem roundsTo_nearestEven (negative : Bool) (n : Nat) :
    nearestEven.RoundsTo ((signed negative n : ℚ) / d)
      (signed negative (nearestEven.divide negative n d)) := by
  have hpos : (0 : ℚ) < d := Nat.cast_pos.mpr hd
  have hnearest : ∀ k : ℤ, |(k : ℚ) - (signed negative n : ℚ) / d| =
      ((signed negative k * d - n).natAbs : ℚ) / d := by
    intro k
    rw [abs_sub_comm, Binary.abs_div_sub hd, ← Int.natAbs_neg, Int.neg_sub, natAbs_mul_sub_signed]
  constructor
  · intro k
    rw [hnearest, hnearest, signed_signed, div_le_div_iff_of_pos_right hpos, Nat.cast_le]
    exact_mod_cast natAbs_divide_sub_le negative hd (signed negative k)
  · intro k hne heq
    rw [hnearest, hnearest, signed_signed, div_left_inj' hpos.ne', Nat.cast_inj] at heq
    have hother : signed negative k ≠ nearestEven.divide negative n d := by
      intro hsame
      rw [← hsame, signed_signed] at hne
      exact hne rfl
    have heven := even_divide_of_natAbs_eq negative hd hother (by exact_mod_cast heq)
    have hdivide : Even ((nearestEven.divide negative n d : Nat) : ℤ) := by
      rw [Int.even_iff]
      omega
    cases negative with
    | false => exact hdivide
    | true => exact hdivide.neg

theorem roundsTo_divide (r : Rounding) (negative : Bool) (n : Nat) :
    r.RoundsTo ((signed negative n : ℚ) / d) (signed negative (r.divide negative n d)) := by
  cases r with
  | down => exact roundsTo_down hd negative n
  | up => exact roundsTo_up hd negative n
  | towardZero => exact roundsTo_towardZero hd negative n
  | nearestEven => exact roundsTo_nearestEven hd negative n

end

/-! ## Unique answers -/

variable {r : Rounding} {q : ℚ} {a b : ℤ}

theorem RoundsTo.unique (ha : r.RoundsTo q a) (hb : r.RoundsTo q b) : a = b := by
  cases r with
  | down => exact IsGreatest.unique ha hb
  | up => exact IsLeast.unique ha hb
  | towardZero => exact ha.trans hb.symm
  | nearestEven =>
    by_contra hne
    have hdist : |(a : ℚ) - q| = |(b : ℚ) - q| := le_antisymm (ha.1 b) (hb.1 a)
    obtain ⟨i, hi⟩ := ha.2 b (Ne.symm hne) hdist.symm
    obtain ⟨j, hj⟩ := hb.2 a hne hdist
    -- two even integers have an integer between them, and it is no nearer
    have hmid := ha.1 (i + j)
    rcases abs_eq_abs.mp hdist with heq | heq
    · exact hne (by exact_mod_cast sub_left_inj.mp heq)
    · have hq : q = ((i + j : ℤ) : ℚ) := by
        subst hi hj
        push_cast at heq ⊢
        linarith
      rw [hq, sub_self, abs_zero, abs_nonpos_iff, sub_eq_zero, Int.cast_inj] at hmid
      omega

theorem roundsTo_intCast (r : Rounding) (n : ℤ) : r.RoundsTo n n := by
  cases r with
  | down => exact ⟨le_refl (n : ℚ), fun k (hk : (k : ℚ) ≤ n) => Int.cast_le.mp hk⟩
  | up => exact ⟨le_refl (n : ℚ), fun k (hk : (n : ℚ) ≤ k) => Int.cast_le.mp hk⟩
  | towardZero => simp [RoundsTo, WasmHost.towardZero]
  | nearestEven =>
    constructor
    · intro k
      rw [sub_self, abs_zero]
      exact abs_nonneg _
    · intro k hne htie
      rw [sub_self, abs_zero, abs_eq_zero, sub_eq_zero, Int.cast_inj] at htie
      exact absurd htie hne

end Rounding

/-! ## Rounded floats -/

namespace Binary

variable {e m : Nat} {x : Binary e m}

theorem scaled_eq_signed (x : Binary e m) : x.scaled = Rounding.signed x.sign x.units := rfl

theorem value_of_units_eq_mul {n : Nat} (h : x.units = n * one e m) :
    x.value = Rounding.signed x.sign n := by
  have hscaled : x.scaled = Rounding.signed x.sign n * one e m := by
    rw [scaled_eq_signed, h]
    cases x.sign with
    | false => exact Int.natCast_mul ..
    | true => simp [Rounding.signed]
  rw [value, hscaled]
  push_cast
  exact mul_div_cancel_right₀ _ (one_cast_pos e m).ne'

theorem abs_value (x : Binary e m) : |x.value| = (x.units : ℚ) / one e m := by
  have hscaled : |x.scaled| = x.units := by
    rw [scaled_eq_signed]
    cases x.sign with
    | false => exact abs_of_nonneg (Int.natCast_nonneg _)
    | true => exact (abs_neg _).trans (abs_of_nonneg (Int.natCast_nonneg _))
  rw [value, abs_div, abs_of_pos (one_cast_pos e m), ← Int.cast_abs, hscaled]
  rfl

theorem eq_zero_of_value_eq_zero (h : x.value = 0) : x = ⟨x.sign, 0#(e + m)⟩ :=
  eq_of_value_eq rfl (h.trans (value_eq_zero_iff.mpr (units_zero _)).symm)

/-- Either a float has no fraction, or it is below `2 ^ m`. -/
theorem one_dvd_or_units_lt (x : Binary e m) : one e m ∣ x.units ∨ x.units < 2 ^ m * one e m := by
  rcases x.representable_units.dvd_or_lt (bias e - 1 + m) with hdvd | hlt
  · exact .inl hdvd
  · refine .inr ?_
    rwa [one, ← Nat.pow_add]

theorem integral_of_dvd (r : Rounding) (h : one e m ∣ x.units) :
    x.integral r = x.units / one e m :=
  Rounding.divide_exact _ _ _ _ (one_pos e m) (Nat.mod_eq_zero_of_dvd h)

/-- The integer to which a float is rounded is a float: where rounding changes something there is
room for it. -/
theorem integral_isFloat (he : 1 < e) (hbias : m ≤ bias e) (hfin : x.isFinite = true)
    (r : Rounding) : rounded m (x.integral r) = x.integral r ∧ x.integral r < 2 ^ (bias e + 1) := by
  rcases x.one_dvd_or_units_lt with hdvd | hlt
  · rw [integral_of_dvd r hdvd, Nat.div_lt_iff_lt_mul (one_pos e m)]
    exact ⟨rounded_of_representable (x.representable_units.div_two_pow _),
      units_lt_of_isFinite he hfin⟩
  · have hquot : x.units / one e m < 2 ^ m := (Nat.div_lt_iff_lt_mul (one_pos e m)).mpr hlt
    have hnext : x.integral r ≤ x.units / one e m + 1 := Rounding.divide_le ..
    have hsmall : x.integral r < 2 ^ (m + 1) := by
      have hstep : 2 ^ m < 2 ^ (m + 1) := Nat.pow_lt_pow_right (by decide) (by omega)
      omega
    refine ⟨rounded_of_representable (representable_of_lt hsmall), ?_⟩
    exact Nat.lt_of_lt_of_le hsmall (Nat.pow_le_pow_right (by decide) (by omega))

theorem sign_round (r : Rounding) (x : Binary e m) : (x.round r).sign = x.sign := by
  unfold round
  split
  · rfl
  · split <;> rfl

section

variable (r : Rounding) (he : 1 < e) (hbias : m ≤ bias e) (hfin : x.isFinite = true)
include he hbias hfin

theorem isFinite_round : (x.round r).isFinite = true := by
  obtain ⟨hself, hlt⟩ := integral_isFloat he hbias hfin r
  rw [round_of_isFinite r hfin]
  exact isFinite_nearest he (by rwa [hself]) _

theorem units_round : (x.round r).units = x.integral r * one e m := by
  obtain ⟨hself, hlt⟩ := integral_isFloat he hbias hfin r
  rw [round_of_isFinite r hfin, units_nearest he (by rwa [hself]), hself]

theorem value_round : (x.round r).value = Rounding.signed x.sign (x.integral r) := by
  rw [value_of_units_eq_mul (units_round r he hbias hfin), sign_round]

theorem roundsTo_value_iff (n : ℤ) : (x.round r).value = n ↔ r.RoundsTo x.value n := by
  have hrounds := Rounding.roundsTo_divide (one_pos e m) r x.sign x.units
  rw [← scaled_eq_signed] at hrounds
  rw [value_round r he hbias hfin, Int.cast_inj]
  constructor
  · rintro rfl
    exact hrounds
  · exact hrounds.unique

/-- A float whose number is whole already stays as it is. -/
theorem round_eq_self_iff : x.round r = x ↔ ∃ n : ℤ, x.value = n := by
  constructor
  · intro hself
    refine ⟨Rounding.signed x.sign (x.integral r), ?_⟩
    rw [← value_round r he hbias hfin, hself]
  · rintro ⟨n, hn⟩
    refine eq_of_value_eq (sign_round r x) ?_
    rw [hn, roundsTo_value_iff r he hbias hfin, hn]
    exact Rounding.roundsTo_intCast r n

/-- From `2 ^ m` on there is no fraction left. -/
theorem round_of_le_abs_value (h : 2 ^ m ≤ |x.value|) : x.round r = x := by
  rw [round_eq_self_iff r he hbias hfin]
  rcases x.one_dvd_or_units_lt with ⟨n, hn⟩ | hlt
  · exact ⟨_, value_of_units_eq_mul (hn.trans (Nat.mul_comm ..))⟩
  · rw [abs_value, le_div_iff₀ (one_cast_pos e m)] at h
    have hle : 2 ^ m * one e m ≤ x.units := by exact_mod_cast h
    omega

end

/-- The float `y` is what rounding `x` should give. A finite float is read exactly and rounded among
all integers; what has no fraction stays, and so does the sign of every float. -/
structure ExactlyRounded (r : Rounding) (x y : Binary e m) : Prop where
  finite : x.isFinite = true → y.isFinite = true
  whole : x.isFinite = true → ∃ n : ℤ, y.value = n
  exact : x.isFinite = true → ∀ n : ℤ, y.value = n ↔ r.RoundsTo x.value n
  fixed : x.isFinite = true → (y = x ↔ ∃ n : ℤ, x.value = n)
  large : x.isFinite = true → 2 ^ m ≤ |x.value| → y = x
  infinite : x.isInfinite = true → y = x
  sign : y.sign = x.sign
  zero : y.value = 0 → y = ⟨x.sign, 0#(e + m)⟩

theorem exactlyRounded_round (r : Rounding) (he : 1 < e) (hbias : m ≤ bias e) (x : Binary e m) :
    ExactlyRounded r x (x.round r) where
  finite := isFinite_round r he hbias
  whole hfin := ⟨_, value_round r he hbias hfin⟩
  exact := roundsTo_value_iff r he hbias
  fixed := round_eq_self_iff r he hbias
  large := round_of_le_abs_value r he hbias
  infinite := round_of_isInfinite r
  sign := sign_round r x
  zero h := by
    rw [eq_zero_of_value_eq_zero h, sign_round]

end Binary

namespace Numeric

open Binary

/-- In both formats and for every float: the four roundings give, of a finite float, exactly the
greatest integer that is not above its number, the least one that is not below it, the one next to
it on the side of zero, and the nearest one, of two that are as near the even one. A float that
stands for an integer already keeps all its bits, as both zeros and all floats from `2 ^ 23`
or `2 ^ 52` on do, and so does an infinity. The sign bit is kept by all floats, NaNs too, so what is
negative is rounded to negative zero and not to zero. -/
theorem rounding_is_exact (t : FloatType) (x : Binary t.exponentBits t.fractionBits) :
    ExactlyRounded .down x (FloatUnaryOp.floor.eval x) ∧
    ExactlyRounded .up x (FloatUnaryOp.ceil.eval x) ∧
    ExactlyRounded .towardZero x (FloatUnaryOp.trunc.eval x) ∧
    ExactlyRounded .nearestEven x (FloatUnaryOp.nearest.eval x) := by
  have he := t.one_lt_exponentBits
  have hbias := t.fractionBits_le_bias
  exact ⟨exactlyRounded_round .down he hbias x, exactlyRounded_round .up he hbias x,
    exactlyRounded_round .towardZero he hbias x, exactlyRounded_round .nearestEven he hbias x⟩

-- minus a half, up and to the nearest integer, and the greatest float below a half
example : FloatUnaryOp.ceil.eval (.ofBits 0xBF000000#32 : F32) = .ofBits 0x80000000#32 ∧
    FloatUnaryOp.nearest.eval (.ofBits 0xBF000000#32 : F32) = .ofBits 0x80000000#32 ∧
    FloatUnaryOp.nearest.eval (.ofBits 0x3EFFFFFF#32 : F32) = .ofBits 0#32 :=
  ⟨rfl, rfl, rfl⟩

end Numeric
end WasmHost
