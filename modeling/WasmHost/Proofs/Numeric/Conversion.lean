import WasmHost.Numeric.Conversion
import WasmHost.Proofs.Binary.Nearest

/-!
# WasmHost.Proofs.Numeric.Conversion

Words as floats. A word without its first bit is cast; one with it is put together from its bits.
Both ways lead to the float nearest to the unsigned number, and a word of 64 bits that is rounded up
to the next power of two is among them.

* `toNat_roundUp`: the bit that is added is the one that rounding to nearest adds.
* `assemble_eq`: a float put together from the bits of a word is the nearest one.
* `convert_eq`: every conversion gives the nearest float.
-/

namespace WasmHost

namespace Rounding

/-- A tie goes by the last bit of the quotient, and all else by the side of the half on which it
lies. -/
theorem toNat_away_nearestEven (negative : Bool) (n d : Nat) :
    (nearestEven.away negative n d).toNat =
      if 2 * (n % d) = d then n / d % 2 else if d < 2 * (n % d) then 1 else 0 := by
  have hparity := Nat.mod_two_eq_zero_or_one (n / d)
  unfold away
  by_cases htie : 2 * (n % d) = d
  · have hnot : ¬ d < 2 * (n % d) := by omega
    rcases hparity with h | h <;> simp [htie, h]
  · have hbeq : (2 * (n % d) == d) = false := beq_eq_false_iff_ne.mpr htie
    by_cases hup : d < 2 * (n % d) <;> simp [hbeq, htie, hup]

/-- Only the ratio counts. -/
theorem divide_nearestEven_mul_right (negative : Bool) (n d : Nat) {c : Nat} (hc : 0 < c) :
    nearestEven.divide negative (n * c) (d * c) = nearestEven.divide negative n d := by
  have hmod : 2 * (n * c % (d * c)) = 2 * (n % d) * c := by
    rw [Nat.mul_mod_mul_right, Nat.mul_assoc]
  unfold divide
  rw [toNat_away_nearestEven, toNat_away_nearestEven, hmod, Nat.mul_div_mul_right _ _ hc]
  simp only [Nat.mul_lt_mul_right hc, Nat.mul_right_cancel_iff hc]

end Rounding

namespace Numeric

open Binary

variable {e m : Nat}

/-! ## The bits of a word -/

/-- The bits of a word that are kept: all but the first, down to the round bit. -/
def keptBits (e m : Nat) (v : BitVec 64) : BitVec (e + m + 1) :=
  ((v <<< 1) >>> (63 - m)).setWidth (e + m + 1)

section

variable {v : BitVec 64} (hv : 2 ^ 63 ≤ v.toNat) (hm : m < 63)

/-- The bits that are dropped begin with the round bit. -/
theorem two_pow_dropped (hm : m < 63) : 2 ^ (63 - m) = 2 ^ (62 - m) * 2 := by
  rw [← Nat.pow_succ]
  congr 1
  omega

theorem log2_toNat (hv : 2 ^ 63 ≤ v.toNat) : v.toNat.log2 = 63 :=
  (Nat.log2_eq_iff (by omega)).mpr ⟨hv, v.isLt⟩

include hv hm

theorem toNat_keptBits : (keptBits e m v).toNat = (v.toNat - 2 ^ 63) / 2 ^ (62 - m) := by
  have hlt := v.isLt
  have hshift : v.toNat * 2 % 2 ^ 64 = (v.toNat - 2 ^ 63) * 2 := by omega
  have hbits : (v.toNat - 2 ^ 63) / 2 ^ (62 - m) < 2 ^ (e + m + 1) := by
    rw [Nat.div_lt_iff_lt_mul (Nat.two_pow_pos _), ← Nat.pow_add]
    calc v.toNat - 2 ^ 63 < 2 ^ 63 := by omega
      _ ≤ 2 ^ (e + m + 1 + (62 - m)) := Nat.pow_le_pow_right (by decide) (by omega)
  unfold keptBits
  rw [BitVec.toNat_setWidth, BitVec.toNat_ushiftRight, BitVec.toNat_shiftLeft,
    Nat.shiftRight_eq_div_pow, Nat.shiftLeft_eq, Nat.pow_one, hshift, two_pow_dropped hm,
    Nat.mul_div_mul_right _ _ (by decide), Nat.mod_eq_of_lt hbits]

/-- The significand field of the result. -/
theorem toNat_keptBits_half :
    (keptBits e m v).toNat / 2 = v.toNat / 2 ^ (63 - m) - 2 ^ m := by
  have htop : 2 ^ 63 = 2 ^ m * 2 ^ (63 - m) := by
    rw [← Nat.pow_add]
    congr 1
    omega
  rw [toNat_keptBits hv hm, Nat.div_div_eq_div_mul, ← two_pow_dropped hm, htop, Nat.mul_comm,
    Nat.sub_mul_div]

/-- The round bit. -/
theorem toNat_keptBits_mod :
    (keptBits e m v).toNat % 2 = v.toNat % 2 ^ (63 - m) / 2 ^ (62 - m) := by
  have htop : 2 ^ 63 = 2 ^ (62 - m) * (2 ^ m * 2) := by
    rw [← Nat.pow_succ, ← Nat.pow_add]
    congr 1
    omega
  rw [toNat_keptBits hv hm, htop, Nat.sub_mul_div, two_pow_dropped hm, Nat.mod_mul_right_div_self]
  have hle : 2 ^ m * 2 ≤ v.toNat / 2 ^ (62 - m) := by
    rw [Nat.le_div_iff_mul_le (Nat.two_pow_pos _), Nat.mul_comm, ← htop]
    exact hv
  omega

/-- Without the dropped bits the first bit is left, and `m` more. -/
theorem quotient_bounds :
    2 ^ m ≤ v.toNat / 2 ^ (63 - m) ∧ v.toNat / 2 ^ (63 - m) < 2 * 2 ^ m := by
  constructor
  · rw [Nat.le_div_iff_mul_le (Nat.two_pow_pos _), ← Nat.pow_add]
    exact Nat.le_trans (Nat.pow_le_pow_right (by decide) (by omega)) hv
  · rw [Nat.div_lt_iff_lt_mul (Nat.two_pow_pos _), ← Nat.pow_succ', ← Nat.pow_add]
    exact Nat.lt_of_lt_of_le v.isLt (Nat.pow_le_pow_right (by decide) (by omega))

/-- Where the word lies halfway, the bit is the last one of the significand. -/
theorem toNat_keptBits_parity (hm0 : 0 < m) :
    (keptBits e m v >>> 1).toNat % 2 = v.toNat / 2 ^ (63 - m) % 2 := by
  have heven : 2 ^ m = 2 * 2 ^ (m - 1) := by
    rw [← Nat.pow_succ']
    congr 1
    omega
  have hle := (quotient_bounds hv hm).1
  rw [BitVec.toNat_ushiftRight, Nat.shiftRight_eq_div_pow, Nat.pow_one, toNat_keptBits_half hv hm]
  omega

theorem toNat_roundUp {rest half : BitVec 64} (hm0 : 0 < m)
    (hrest : rest.toNat = 2 ^ (63 - m) - 1) (hhalf : half.toNat = 2 ^ (62 - m)) :
    (if v &&& rest = half then (keptBits e m v >>> 1) &&& 1 else keptBits e m v &&& 1).toNat =
      (Rounding.nearestEven.away false v.toNat (2 ^ (63 - m))).toNat := by
  have hpow := two_pow_dropped hm
  have hlow : v &&& rest = half ↔ 2 * (v.toNat % 2 ^ (63 - m)) = 2 ^ (63 - m) := by
    rw [← BitVec.toNat_inj, BitVec.toNat_and, hrest, hhalf, Nat.and_two_pow_sub_one_eq_mod, hpow]
    omega
  have hbit : ∀ b : BitVec (e + m + 1), (b &&& 1).toNat = b.toNat % 2 := by
    intro b
    have hone : (1 : BitVec (e + m + 1)).toNat = 1 := BitVec.toNat_one (by omega)
    rw [BitVec.toNat_and, hone, Nat.and_one_is_mod]
  have hround := toNat_keptBits_mod (e := e) hv hm
  have hrem := Nat.mod_lt v.toNat (Nat.two_pow_pos (63 - m))
  rw [Rounding.toNat_away_nearestEven]
  simp only [hlow]
  by_cases htie : 2 * (v.toNat % 2 ^ (63 - m)) = 2 ^ (63 - m)
  · rw [if_pos htie, if_pos htie, hbit, toNat_keptBits_parity hv hm hm0]
  · rw [if_neg htie, if_neg htie, hbit, hround]
    by_cases hup : 2 ^ (63 - m) < 2 * (v.toNat % 2 ^ (63 - m))
    · rw [if_pos hup]
      exact Nat.div_eq_of_lt_le (by omega) (by omega)
    · rw [if_neg hup]
      exact Nat.div_eq_of_lt (by omega)

/-- No bit of the significand is one of the exponent. -/
theorem toNat_fields {top : BitVec (e + m + 1)} {k : Nat} (htop : top.toNat = k * 2 ^ m) :
    (keptBits e m v >>> 1 ||| top).toNat = k * 2 ^ m + (v.toNat / 2 ^ (63 - m) - 2 ^ m) := by
  have hbounds := quotient_bounds hv hm
  rw [BitVec.toNat_or, BitVec.toNat_ushiftRight, Nat.shiftRight_eq_div_pow, Nat.pow_one,
    toNat_keptBits_half hv hm, htop, Nat.or_comm, Nat.mul_comm, Nat.two_pow_add_eq_or_of_lt]
  omega

/-- The bits to which the word is rounded: those that are left, and the one that is added. -/
theorem significand_eq :
    significand m v.toNat = v.toNat / 2 ^ (63 - m) +
      (Rounding.nearestEven.away false v.toNat (2 ^ (63 - m))).toNat := by
  have hscale : 2 ^ 63 = 2 ^ (63 - m) * 2 ^ m := by
    rw [← Nat.pow_add, Nat.sub_add_cancel (by omega)]
  unfold significand
  rw [log2_toNat hv, hscale, Rounding.divide_nearestEven_mul_right false _ _ (Nat.two_pow_pos m)]
  rfl

end

/-! ## The nearest float -/

theorem assemble_eq (he : 64 ≤ bias e) (hm0 : 0 < m) (hm : m < 63) {rest half : BitVec 64}
    {top : BitVec (e + m + 1)} (hrest : rest.toNat = 2 ^ (63 - m) - 1)
    (hhalf : half.toNat = 2 ^ (62 - m)) (htop : top.toNat = (63 + bias e) * 2 ^ m)
    {v : BitVec 64} (hv : 2 ^ 63 ≤ v.toNat) :
    assemble rest half top v = (⟨false, nearest e m v.toNat⟩ : Binary e m) := by
  have he1 : 1 < e := one_lt_of_bias (by decide) he
  have hzero : v.toNat ≠ 0 := by omega
  have hfits : rounded m v.toNat < 2 ^ (bias e + 1) :=
    Nat.lt_of_le_of_lt (rounded_le_of_lt v.isLt) (Nat.pow_lt_pow_right (by decide) (by omega))
  have hmag := toNat_nearest he1 hzero hfits
  have hinf := magnitude_lt_infinity he1 hzero hfits
  rw [log2_toNat hv, significand_eq hv hm] at hmag hinf
  have hword := (infinity e m).isLt
  have hbounds := quotient_bounds hv hm
  -- the first bit of the significand counts as one of the exponent field
  have hexp : (63 + bias e - 1) * 2 ^ m + 2 ^ m = (63 + bias e) * 2 ^ m := by
    rw [← Nat.succ_mul]
    congr 1
    omega
  have hsum : (keptBits e m v >>> 1 ||| top) +
      (if v &&& rest = half then (keptBits e m v >>> 1) &&& 1 else keptBits e m v &&& 1) =
        (⟨false, nearest e m v.toNat⟩ : Binary e m).toBits := by
    apply BitVec.eq_of_toNat_eq
    rw [BitVec.toNat_add, toNat_fields hv hm htop, toNat_roundUp hv hm hm0 hrest hhalf, toBits,
      BitVec.toNat_cons, hmag, Nat.mod_eq_of_lt]
    · simp only [Bool.toNat_false, Nat.zero_shiftLeft, Nat.zero_or]
      omega
    · rw [Nat.pow_succ]
      omega
  unfold assemble
  change ofBits ((keptBits e m v >>> 1 ||| top) +
      (if v &&& rest = half then (keptBits e m v >>> 1) &&& 1 else keptBits e m v &&& 1)) = _
  rw [hsum, ofBits_toBits]

theorem convertLarge_eq (t : FloatType) {v : BitVec 64} (hv : 2 ^ 63 ≤ v.toNat) :
    convertLarge t v = ⟨false, nearest _ _ v.toNat⟩ := by
  cases t with
  | f32 =>
    exact assemble_eq (by decide) (by decide) (by decide) (by decide) (by decide) (by decide) hv
  | f64 =>
    exact assemble_eq (by decide) (by decide) (by decide) (by decide) (by decide) (by decide) hv

theorem ofInt_natCast (e m n : Nat) : Binary.ofInt e m n = ⟨false, nearest e m n⟩ := by
  simp [Binary.ofInt]

/-- The first bit of a word tells whether it is a signed one that is not negative. -/
theorem ushiftRight_eq_zero_iff (x : BitVec 64) : x >>> 63 = 0#64 ↔ x.toNat < 2 ^ 63 := by
  have hlt := x.isLt
  rw [← BitVec.toNat_inj, BitVec.toNat_ushiftRight, Nat.shiftRight_eq_div_pow]
  simp only [BitVec.toNat_ofNat, Nat.zero_mod]
  omega

/-- Every word is converted to the float nearest to its unsigned reading. -/
theorem convert_eq (t : FloatType) (s : IntType) (x : BitVec s.width) :
    convert t s x = ⟨false, nearest _ _ x.toNat⟩ := by
  cases s with
  | i32 => exact ofInt_natCast ..
  | i64 =>
    have hfirst := ushiftRight_eq_zero_iff x
    simp only [convert, hfirst]
    split
    · rename_i h
      have hhalf : 2 * x.toNat < 2 ^ 64 := by omega
      have hint : x.toInt = (x.toNat : Int) := BitVec.toInt_eq_toNat_of_lt hhalf
      rw [hint]
      exact ofInt_natCast ..
    · rename_i h
      exact convertLarge_eq t (by omega)

end Numeric
end WasmHost
