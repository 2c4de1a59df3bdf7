import WasmHost.Proofs.Binary.Units
import WasmHost.Binary.Integer

/-!
# WasmHost.Proofs.Binary.Nearest

The float nearest to a whole number. Its value is a whole number again, `rounded`, as long as the
exponents of the format reach it. So rounding can be spoken of among the natural numbers, and the
bits come back through the count of units.

* `rounded_eq_self_iff`: what is rounded to itself.
* `two_pow_le_rounded_iff`: from where on a number is rounded up to the next power of two.
* `units_nearest`: the value of the nearest float.
* `nearest_rounded`: the nearest float is its own nearest float.
-/

namespace WasmHost

namespace Rounding

/-- Above an odd quotient a half is rounded up. -/
theorem lt_divide_nearestEven_iff (negative : Bool) {n d q : Nat} (hd : 0 < d) (hq : q % 2 = 1) :
    q < nearestEven.divide negative n d ↔ (2 * q + 1) * d ≤ 2 * n := by
  obtain ⟨hlow, hhigh⟩ := two_mul_divide_nearestEven negative n d hd
  constructor
  · intro h
    have hle : d * (2 * (q + 1)) ≤ d * (2 * nearestEven.divide negative n d) :=
      Nat.mul_le_mul_left d (by omega)
    have hsplit : d * (2 * (q + 1)) = (2 * q + 1) * d + d := by
      rw [show 2 * (q + 1) = 2 * q + 1 + 1 by omega, Nat.mul_comm, Nat.add_mul (2 * q + 1),
        Nat.one_mul]
    omega
  · intro h
    rw [Nat.mul_comm] at h
    have hle := Nat.le_of_mul_le_mul_left (Nat.le_trans h hlow) hd
    refine Nat.lt_of_le_of_ne (by omega) fun heq => ?_
    -- the quotient is a half above `q`, so it was rounded to `q + 1`
    rw [← heq] at hlow
    have hdiv := Nat.div_add_mod n d
    have hmod := Nat.mod_lt n hd
    have htie : d * (2 * q + 1) = 2 * n := Nat.le_antisymm h hlow
    rw [Nat.mul_add, Nat.mul_left_comm, Nat.mul_one] at htie
    have hquot : n / d = q := by
      refine Nat.div_eq_of_lt_le ?_ ?_
      · rw [Nat.mul_comm]
        omega
      · rw [Nat.succ_mul, Nat.mul_comm]
        omega
    rw [hquot] at hdiv
    have haway : nearestEven.away negative n d = true := by
      have hhalf : 2 * (n % d) = d := by omega
      simp [away, hhalf, hquot, hq]
    unfold divide at heq
    rw [haway, hquot, Bool.toNat_true] at heq
    omega

end Rounding

namespace Binary

variable {e m n : Nat}

/-- The bits to which a number is rounded: its first one and `m` more. -/
def significand (m n : Nat) : Nat := Rounding.nearestEven.divide false (n * 2 ^ m) (2 ^ n.log2)

/-- The whole number for which the nearest float stands. -/
def rounded (m n : Nat) : Nat := significand m n * 2 ^ n.log2 / 2 ^ m

/-! ## The significand -/

theorem le_significand (m : Nat) (hn : n ≠ 0) : 2 ^ m ≤ significand m n := by
  refine Nat.le_trans ?_ (Rounding.le_divide ..)
  rw [Nat.le_div_iff_mul_le (Nat.two_pow_pos _), Nat.mul_comm]
  exact Nat.mul_le_mul_right _ (Nat.log2_self_le hn)

theorem significand_le (m n : Nat) : significand m n ≤ 2 ^ (m + 1) := by
  refine Nat.le_trans (Rounding.divide_le ..) (Nat.succ_le_of_lt ?_)
  rw [Nat.div_lt_iff_lt_mul (Nat.two_pow_pos _), ← Nat.pow_add]
  calc n * 2 ^ m < 2 ^ (n.log2 + 1) * 2 ^ m :=
        Nat.mul_lt_mul_of_pos_right Nat.lt_log2_self (Nat.two_pow_pos m)
    _ = 2 ^ (m + 1 + n.log2) := by rw [← Nat.pow_add]; congr 1; omega

theorem significand_of_dvd (h : 2 ^ n.log2 ∣ n * 2 ^ m) :
    significand m n * 2 ^ n.log2 = n * 2 ^ m := by
  unfold significand
  rw [Rounding.divide_exact _ _ _ _ (Nat.two_pow_pos _) (Nat.mod_eq_zero_of_dvd h),
    Nat.div_mul_cancel h]

/-! ## The rounded number -/

theorem rounded_mul (m n : Nat) : rounded m n * 2 ^ m = significand m n * 2 ^ n.log2 := by
  refine Nat.div_mul_cancel ?_
  rcases Nat.le_total m n.log2 with h | h
  · exact Nat.dvd_mul_left_of_dvd (Nat.pow_dvd_pow 2 h) _
  · rw [significand_of_dvd (Nat.dvd_mul_left_of_dvd (Nat.pow_dvd_pow 2 h) _)]
    exact Nat.dvd_mul_left _ _

theorem rounded_zero (m : Nat) : rounded m 0 = 0 := by
  simp [rounded, significand, Rounding.divide, Rounding.away]

theorem rounded_of_representable (h : Representable m n) : rounded m n = n := by
  by_cases hn : n = 0
  · rw [hn, rounded_zero]
  · unfold rounded
    rw [significand_of_dvd (h.two_pow_log2_dvd hn), Nat.mul_div_cancel _ (Nat.two_pow_pos m)]

theorem two_pow_log2_le_rounded (m : Nat) (hn : n ≠ 0) : 2 ^ n.log2 ≤ rounded m n := by
  refine Nat.le_of_mul_le_mul_right ?_ (Nat.two_pow_pos m)
  rw [rounded_mul, Nat.mul_comm]
  exact Nat.mul_le_mul_right _ (le_significand m hn)

theorem rounded_le (m n : Nat) : rounded m n ≤ 2 ^ (n.log2 + 1) := by
  refine Nat.le_of_mul_le_mul_right ?_ (Nat.two_pow_pos m)
  calc rounded m n * 2 ^ m = significand m n * 2 ^ n.log2 := rounded_mul m n
    _ ≤ 2 ^ (m + 1) * 2 ^ n.log2 := Nat.mul_le_mul_right _ (significand_le m n)
    _ = 2 ^ (n.log2 + 1) * 2 ^ m := by rw [← Nat.pow_add, ← Nat.pow_add]; congr 1; omega

theorem rounded_le_of_lt {w : Nat} (h : n < 2 ^ w) : rounded m n ≤ 2 ^ w := by
  by_cases hn : n = 0
  · rw [hn, rounded_zero]
    exact Nat.zero_le _
  · exact Nat.le_trans (rounded_le m n) (Nat.pow_le_pow_right (by decide) ((Nat.log2_lt hn).mpr h))

theorem representable_rounded (m n : Nat) : Representable m (rounded m n) := by
  rcases Nat.lt_or_ge n.log2 m with h | h
  · refine representable_of_lt (Nat.lt_of_le_of_lt (rounded_le m n) ?_)
    exact Nat.pow_lt_pow_right (by decide) (by omega)
  · have heq : rounded m n = significand m n * 2 ^ (n.log2 - m) := by
      refine Nat.eq_of_mul_eq_mul_right (Nat.two_pow_pos m) ?_
      rw [rounded_mul, Nat.mul_assoc, ← Nat.pow_add, Nat.sub_add_cancel h]
    rw [heq]
    refine Representable.mul_two_pow ?_ _
    rcases Nat.lt_or_eq_of_le (significand_le m n) with hs | hs
    · exact representable_of_lt hs
    -- the carry left a power of two
    · exact ⟨1, m + 1, by rw [hs, Nat.one_mul], Nat.one_lt_two_pow (by omega)⟩

theorem rounded_eq_self_iff : rounded m n = n ↔ Representable m n := by
  constructor
  · intro h
    rw [← h]
    exact representable_rounded m n
  · exact rounded_of_representable

/-- A number is rounded up to the next power of two where its significand overflows. -/
theorem two_pow_le_rounded_iff_significand :
    2 ^ (n.log2 + 1) ≤ rounded m n ↔ 2 ^ (m + 1) ≤ significand m n := by
  have hpow : 2 ^ (n.log2 + 1) * 2 ^ m = 2 ^ (m + 1) * 2 ^ n.log2 := by
    rw [← Nat.pow_add, ← Nat.pow_add]
    congr 1
    omega
  rw [← Nat.mul_le_mul_right_iff (Nat.two_pow_pos m), rounded_mul, hpow,
    Nat.mul_le_mul_right_iff (Nat.two_pow_pos n.log2)]

/-- It does so from half a unit above the significand with all bits set on. That one is odd, so the
half itself goes up too. -/
theorem two_pow_le_significand_iff :
    2 ^ (m + 1) ≤ significand m n ↔ (2 * 2 ^ (m + 1) - 1) * 2 ^ n.log2 ≤ n * 2 ^ (m + 1) := by
  have hpos := Nat.two_pow_pos m
  have hodd : (2 ^ (m + 1) - 1) % 2 = 1 := by
    rw [Nat.pow_succ]
    omega
  have hfull : 2 * (2 ^ (m + 1) - 1) + 1 = 2 * 2 ^ (m + 1) - 1 := by
    rw [Nat.pow_succ]
    omega
  have hhalf : 2 * (n * 2 ^ m) = n * 2 ^ (m + 1) := by
    rw [Nat.pow_succ, Nat.mul_comm 2, Nat.mul_assoc]
  have hcarry := Rounding.lt_divide_nearestEven_iff false (n := n * 2 ^ m) (Nat.two_pow_pos n.log2)
    hodd
  rw [hfull, hhalf] at hcarry
  rw [← hcarry]
  unfold significand
  omega

/-- A number of `w` bits is rounded up to the next power of two from half a unit of the last
significand bit below it on. -/
theorem two_pow_le_rounded_iff {w : Nat} (hw : m + 2 ≤ w) (hn : n < 2 ^ w) :
    2 ^ w ≤ rounded m n ↔ 2 ^ w - 2 ^ (w - m - 2) ≤ n := by
  have hw1 : 2 ^ w = 2 * 2 ^ (w - 1) := by
    rw [Nat.mul_comm, ← Nat.pow_succ]
    congr 1
    omega
  have hpos := Nat.two_pow_pos (w - 1)
  have hsmall : 2 ^ (w - m - 2) ≤ 2 ^ (w - 1) := Nat.pow_le_pow_right (by decide) (by omega)
  by_cases hlow : n < 2 ^ (w - 1)
  · have hround := rounded_le_of_lt (m := m) hlow
    omega
  · have hlog : n.log2 = w - 1 := by
      rw [Nat.log2_eq_iff (by omega), Nat.sub_add_cancel (by omega)]
      exact ⟨by omega, hn⟩
    have hcarry := two_pow_le_rounded_iff_significand (m := m) (n := n)
    have hunit : 2 ^ (w - m - 2) * 2 ^ (m + 1) = 2 ^ (w - 1) := by
      rw [← Nat.pow_add]
      congr 1
      omega
    have hscale : (2 * 2 ^ (m + 1) - 1) * 2 ^ (w - 1)
        = (2 ^ w - 2 ^ (w - m - 2)) * 2 ^ (m + 1) := by
      rw [Nat.sub_mul, Nat.sub_mul, hunit, hw1, Nat.one_mul, Nat.mul_right_comm]
    rw [hlog, Nat.sub_add_cancel (by omega)] at hcarry
    rw [hcarry, two_pow_le_significand_iff, hlog, hscale,
      Nat.mul_le_mul_right_iff (Nat.two_pow_pos (m + 1))]

/-! ## The nearest float -/

theorem two_pow_exponentBits (he : 1 < e) : 2 ^ e = 2 * bias e + 2 := by
  have hpos := Nat.two_pow_pos (e - 1)
  have hpow : 2 ^ e = 2 * 2 ^ (e - 1) := by
    rw [Nat.mul_comm, ← Nat.pow_succ]
    congr 1
    omega
  unfold bias
  omega

theorem bias_pos (he : 1 < e) : 0 < bias e := by
  have hpow : 2 ^ 1 ≤ 2 ^ (e - 1) := Nat.pow_le_pow_right (by decide) (by omega)
  unfold bias
  omega

theorem one_lt_of_bias {b : Nat} (hb : b ≠ 0) (h : b ≤ bias e) : 1 < e := by
  refine Nat.lt_of_not_le fun hle => ?_
  have hpow : 2 ^ (e - 1) ≤ 2 ^ 0 := Nat.pow_le_pow_right (by decide) (by omega)
  unfold bias at h
  omega

theorem toNat_infinity_eq (he : 1 < e) (m : Nat) :
    (infinity e m).toNat = (2 * bias e + 1) * 2 ^ m := by
  rw [toNat_infinity, two_pow_exponentBits he]
  rfl

/-- The exponents of the format reach the rounded number. -/
theorem magnitude_lt_infinity (he : 1 < e) (hn : n ≠ 0) (h : rounded m n < 2 ^ (bias e + 1)) :
    (n.log2 + bias e - 1) * 2 ^ m + significand m n < (infinity e m).toNat := by
  have hbias := bias_pos he
  have hlog : n.log2 < bias e + 1 := by
    rw [← Nat.pow_lt_pow_iff_right (a := 2) (by decide)]
    exact Nat.lt_of_le_of_lt (two_pow_log2_le_rounded m hn) h
  rw [toNat_infinity_eq he]
  rcases Nat.lt_or_eq_of_le (significand_le m n) with hs | hs
  · have hexp : (n.log2 + bias e - 1 + 2) * 2 ^ m ≤ (2 * bias e + 1) * 2 ^ m :=
      Nat.mul_le_mul_right _ (by omega)
    rw [Nat.pow_succ] at hs
    rw [Nat.add_mul] at hexp
    omega
  · have hcarry : rounded m n = 2 ^ (n.log2 + 1) := by
      refine Nat.eq_of_mul_eq_mul_right (Nat.two_pow_pos m) ?_
      rw [rounded_mul, hs, ← Nat.pow_add, ← Nat.pow_add]
      congr 1
      omega
    rw [hcarry, Nat.pow_lt_pow_iff_right (by decide)] at h
    have hexp : (n.log2 + bias e - 1 + 2) * 2 ^ m < (2 * bias e + 1) * 2 ^ m :=
      Nat.mul_lt_mul_of_pos_right (by omega) (Nat.two_pow_pos m)
    rw [Nat.add_mul] at hexp
    rw [hs, Nat.pow_succ]
    omega

theorem toNat_nearest (he : 1 < e) (hn : n ≠ 0) (h : rounded m n < 2 ^ (bias e + 1)) :
    (nearest e m n).toNat = (n.log2 + bias e - 1) * 2 ^ m + significand m n := by
  have hlt := magnitude_lt_infinity he hn h
  have hfits := (infinity e m).isLt
  unfold nearest
  rw [if_neg hn]
  simp only [BitVec.toNat_ofNat]
  change Min.min ((n.log2 + bias e - 1) * 2 ^ m + significand m n) (infinity e m).toNat % _ = _
  rw [Nat.min_eq_left (by omega), Nat.mod_eq_of_lt (by omega)]

theorem units_nearest (he : 1 < e) (h : rounded m n < 2 ^ (bias e + 1)) (s : Bool) :
    (⟨s, nearest e m n⟩ : Binary e m).units = rounded m n * one e m := by
  by_cases hn : n = 0
  · rw [hn, rounded_zero, Nat.zero_mul]
    exact units_zero s
  · have hbias := bias_pos he
    have hmag := toNat_nearest he hn h
    rw [units_of_magnitude (le_significand m hn) (significand_le m n) hmag]
    calc significand m n * 2 ^ (n.log2 + bias e - 1)
        = significand m n * 2 ^ n.log2 * 2 ^ (bias e - 1) := by
          rw [Nat.mul_assoc, ← Nat.pow_add]
          congr 2
          omega
      _ = rounded m n * one e m := by
          rw [← rounded_mul, Nat.mul_assoc, ← Nat.pow_add, one, Nat.add_comm]

theorem isFinite_nearest (he : 1 < e) (h : rounded m n < 2 ^ (bias e + 1)) (s : Bool) :
    (⟨s, nearest e m n⟩ : Binary e m).isFinite = true := by
  rw [isFinite, decide_eq_true_eq, BitVec.lt_def]
  by_cases hn : n = 0
  · rw [hn, toNat_infinity_eq he]
    exact Nat.mul_pos (by omega) (Nat.two_pow_pos m)
  · rw [toNat_nearest he hn h]
    exact magnitude_lt_infinity he hn h

/-- Once rounded, a number is rounded to itself. -/
theorem nearest_rounded (he : 1 < e) (h : rounded m n < 2 ^ (bias e + 1)) :
    nearest e m (rounded m n) = nearest e m n := by
  have hself := rounded_of_representable (representable_rounded m n)
  have hunits : (⟨false, nearest e m (rounded m n)⟩ : Binary e m).units
      = (⟨false, nearest e m n⟩ : Binary e m).units := by
    rw [units_nearest he (by rw [hself]; exact h), units_nearest he h, hself]
  exact units_inj.mp hunits

end Binary
end WasmHost
