import Mathlib.Data.Int.CharZero
import WasmHost.Proofs.Binary.Units
import WasmHost.Proofs.Text.HexFloat

/-!
# WasmHost.Proofs.Text.Float

The text of a float says which float it is. A finite float, subnormal or not, is a first bit and at
most `m` bits behind it; these fill whole hexadecimal digits from the left, so neither the filling
nor the zeros dropped at the end change the number.

* `units_mul_two_pow`: the first bit of a value and the bits behind it.
* `text_of_isFinite`: a finite float is written as the literal of its value.
* `text_of_isNaN`: a NaN keeps its sign and its significand in the text.
* `text_inj`: two floats of one text are the same.
-/

namespace WasmHost
namespace Binary

open Text (HexFloat Reading)

variable {e m : Nat}

/-- The number that a finite float stands for. -/
def value (x : Binary e m) : ℚ := x.scaled / one e m

/-- The bits of a value behind its first one. -/
def trailing (m n : Nat) : Nat := n * 2 ^ m / 2 ^ n.log2 % 2 ^ m

/-! ## The digits of a fraction -/

theorem trailing_lt (m n : Nat) : trailing m n < 2 ^ m := Nat.mod_lt _ (Nat.two_pow_pos m)

theorem units_mul_two_pow {n : Nat} (h : Representable m n) (hn : n ≠ 0) :
    n * 2 ^ m = (2 ^ m + trailing m n) * 2 ^ n.log2 := by
  have hlow : 2 ^ m ≤ n * 2 ^ m / 2 ^ n.log2 := by
    rw [Nat.le_div_iff_mul_le (Nat.two_pow_pos _), Nat.mul_comm]
    exact Nat.mul_le_mul_right _ (Nat.log2_self_le hn)
  have hhigh : n * 2 ^ m / 2 ^ n.log2 < 2 ^ m * 2 := by
    rw [Nat.div_lt_iff_lt_mul (Nat.two_pow_pos _), Nat.mul_assoc, ← Nat.pow_succ', Nat.mul_comm]
    exact Nat.mul_lt_mul_of_pos_left Nat.lt_log2_self (Nat.two_pow_pos m)
  have hquot : n * 2 ^ m / 2 ^ n.log2 = 2 ^ m + trailing m n := by
    have hsub : trailing m n = n * 2 ^ m / 2 ^ n.log2 - 2 ^ m := by
      unfold trailing
      rw [Nat.mod_eq_sub_mod hlow, Nat.mod_eq_of_lt (by omega)]
    omega
  rw [← hquot, Nat.div_mul_cancel (h.two_pow_log2_dvd hn)]

/-- The bits of a fraction as hexadecimal digits: filled up from the left, without zeros at the end,
and still of the same value. -/
theorem exists_fractionText {f : Nat} (hf : f < 2 ^ m) :
    ∃ ds, fractionText m f = ds.map Text.Hex.char ∧ ds.getLast? ≠ some 0 ∧
      HexFloat.point ds = f / 2 ^ m := by
  have hfill : m ≤ 4 * fractionDigits m := by
    unfold fractionDigits
    omega
  have hdigits : 16 ^ fractionDigits m = 2 ^ m * 2 ^ (4 * fractionDigits m - m) := by
    rw [← Nat.pow_add, Nat.add_sub_cancel' hfill, Nat.pow_mul]
  obtain ⟨full, hfull, hnumber⟩ := Text.Hex.exists_fixed (fractionDigits m)
    (f * 2 ^ (4 * fractionDigits m - m))
  have hlength : full.length = fractionDigits m := by
    rw [← List.length_map Text.Hex.char, ← hfull, Text.Hex.length_fixed]
  obtain ⟨ds, j, htext, hds, hlast⟩ := Text.Hex.exists_dropTrailingZeros full
  refine ⟨ds, by rw [fractionText, hfull, htext], hlast, ?_⟩
  rw [← HexFloat.point_append_zeros ds j, ← hds, HexFloat.point, hlength, hnumber, hdigits,
    Nat.mod_eq_of_lt (Nat.mul_lt_mul_of_pos_right hf (Nat.two_pow_pos _))]
  have hpos : (2 : ℚ) ^ (4 * fractionDigits m - m) ≠ 0 := pow_ne_zero _ (by decide)
  have hcast : (16 : ℚ) ^ fractionDigits m = 2 ^ m * 2 ^ (4 * fractionDigits m - m) := by
    exact_mod_cast hdigits
  rw [hcast, Nat.cast_mul, Nat.cast_pow, Nat.cast_ofNat, mul_div_mul_right _ _ hpos]

/-! ## Finite floats -/

theorem text_eq (x : Binary e m) : x.text = Text.signText x.sign ++ x.literal.text := rfl

theorem value_eq_zero_iff {x : Binary e m} : x.value = 0 ↔ x.units = 0 := by
  have hone : ((one e m : Nat) : ℚ) ≠ 0 := Nat.cast_ne_zero.mpr (Nat.two_pow_pos _).ne'
  rw [value, div_eq_zero_iff, Int.cast_eq_zero, or_iff_left hone, scaled]
  split <;> omega

theorem value_of_literal {x : Binary e m} (hx : x.units ≠ 0) {ds : List (Fin 16)}
    (hds : HexFloat.point ds = trailing m x.units / 2 ^ m) :
    HexFloat.value ⟨x.sign, 1, ds, (x.units.log2 : Int) - (bias e - 1 + m : Nat)⟩ = x.value := by
  have hone : ((one e m : Nat) : ℚ) = 2 ^ (bias e - 1 + m) := by
    rw [one, Nat.cast_pow, Nat.cast_ofNat]
  have hunits : (x.units : ℚ) * 2 ^ m = (2 ^ m + trailing m x.units) * 2 ^ x.units.log2 := by
    exact_mod_cast units_mul_two_pow (representable_units x) hx
  have hmagnitude : ((1 : ℚ) + trailing m x.units / 2 ^ m) * 2 ^ x.units.log2 = x.units := by
    field_simp
    rw [← hunits, mul_comm]
  have hexponent : (2 : ℚ) ^ ((x.units.log2 : Int) - (bias e - 1 + m : Nat)) =
      2 ^ x.units.log2 / one e m := by
    rw [zpow_sub₀ (by decide), zpow_natCast, zpow_natCast, hone]
  have hlead : (((1 : Fin 16).val : Nat) : ℚ) = 1 := Nat.cast_one
  rw [HexFloat.value, hlead, hds, hexponent, ← mul_div_assoc, hmagnitude, value, scaled]
  cases x.sign with
  | false => simp
  | true => simp [neg_div]

/-- A finite float is written as a literal of exactly its value, and in one way only. -/
theorem text_of_isFinite {x : Binary e m} (h : x.isFinite = true) :
    ∃ l : HexFloat, x.text = l.text ∧ l.negative = x.sign ∧ l.value = x.value ∧ l.Normal := by
  have hnan := isNaN_of_isFinite h
  have hinf := isInfinite_of_isFinite h
  by_cases hx : x.units = 0
  · have hliteral : x.literal = .zero := by
      unfold literal
      simp [hnan, hinf, hx]
    have hvalue : HexFloat.value ⟨x.sign, 0, [], 0⟩ = 0 := by
      simp [HexFloat.value, HexFloat.point, Text.Hex.number]
    have hnormal : HexFloat.Normal ⟨x.sign, 0, [], 0⟩ :=
      ⟨fun _ => ⟨rfl, rfl, rfl⟩, fun hne => absurd hvalue hne⟩
    refine ⟨⟨x.sign, 0, [], 0⟩, ?_, rfl, ?_, hnormal⟩
    · have hexponent : Literal.exponentText 0 = ['+', '0'] := by decide
      have hlead : Text.Hex.char 0 = '0' := rfl
      rw [text_eq, hliteral, HexFloat.text]
      simp [Literal.text, hexponent, hlead]
    · rw [hvalue, value_eq_zero_iff.mpr hx]
  · obtain ⟨ds, htext, hlast, hpoint⟩ := exists_fractionText (trailing_lt m x.units)
    have hliteral : x.literal = .normal (ds.map Text.Hex.char)
        ((x.units.log2 : Int) - (bias e - 1 + m : Nat)) := by
      unfold literal
      rw [← htext]
      simp [hnan, hinf, hx, trailing]
    have hvalue := value_of_literal hx hpoint
    refine ⟨_, ?_, rfl, hvalue, ⟨?_, fun _ => ⟨rfl, hlast⟩⟩⟩
    · rw [text_eq, hliteral, HexFloat.text]
      simp [Literal.text, Text.Hex.char]
    · intro hzero
      rw [hvalue] at hzero
      exact absurd (value_eq_zero_iff.mp hzero) hx

/-! ## What is no number -/

/-- The canonical NaN has a text of its own, but no other NaN shares it. -/
theorem text_of_isNaN (hm : 0 < m) {x : Binary e m} (h : x.isNaN = true) :
    Reading.ofText? m x.text = some (.nan x.sign x.fraction) := by
  by_cases hcanonical : x.isCanonicalNaN = true
  · have hliteral : x.literal = .canonicalNaN := by
      unfold literal
      simp [h, hcanonical]
    rw [text_eq, hliteral, ((isCanonicalNaN_iff_fields hm x).mp hcanonical).2]
    exact Reading.ofText?_signText m x.sign (by decide) ['a', 'n']
  · have hliteral : x.literal = .nan x.fraction := by
      unfold literal
      simp [h, hcanonical]
    have hsign := Reading.ofText?_signText m x.sign (c := 'n') (by decide)
      ('a' :: 'n' :: ':' :: '0' :: 'x' :: Text.Hex.digits x.fraction)
    have hread : Reading.unsigned? m x.sign
        ('n' :: 'a' :: 'n' :: ':' :: '0' :: 'x' :: Text.Hex.digits x.fraction) =
          (Text.Hex.natural? (Text.Hex.digits x.fraction)).map (.nan x.sign) := rfl
    rw [text_eq, hliteral]
    exact hsign.trans (hread.trans (by rw [Text.Hex.natural?_digits]; rfl))

theorem text_of_isInfinite {x : Binary e m} (h : x.isInfinite = true) :
    Reading.ofText? m x.text = some (.infinity x.sign) := by
  have hliteral : x.literal = .infinity := by
    unfold literal
    simp [isNaN_of_isInfinite h, h]
  rw [text_eq, hliteral]
  exact Reading.ofText?_signText m x.sign (by decide) ['n', 'f']

/-! ## Telling floats apart -/

/-- What is read from a text holds of the float. -/
def Says (x : Binary e m) : Reading → Prop
  | .infinity negative => x.isInfinite = true ∧ x.sign = negative
  | .nan negative significand => x.isNaN = true ∧ x.sign = negative ∧ x.fraction = significand
  | .number l => x.isFinite = true ∧ x.sign = l.negative ∧ x.value = l.value

theorem exists_reading (hm : 0 < m) (x : Binary e m) :
    ∃ r, Reading.ofText? m x.text = some r ∧ x.Says r := by
  cases hnan : x.isNaN with
  | true => exact ⟨_, text_of_isNaN hm hnan, hnan, rfl, rfl⟩
  | false =>
    rcases isFinite_or_isInfinite hnan with hfin | hinf
    · obtain ⟨l, htext, hsign, hvalue, _⟩ := text_of_isFinite hfin
      rw [htext]
      exact ⟨_, Reading.ofText?_text m l, hfin, hsign.symm, hvalue.symm⟩
    · exact ⟨_, text_of_isInfinite hinf, hinf, rfl⟩

theorem units_of_value {x y : Binary e m} (hsign : x.sign = y.sign) (h : x.value = y.value) :
    x.units = y.units := by
  have hone : ((one e m : Nat) : ℚ) ≠ 0 := Nat.cast_ne_zero.mpr (Nat.two_pow_pos _).ne'
  have hscaled : x.scaled = y.scaled := by
    rw [value, value, div_left_inj' hone] at h
    exact_mod_cast h
  rw [scaled, scaled, hsign] at hscaled
  split at hscaled <;> omega

theorem eq_of_says {x y : Binary e m} {r : Reading} (hx : x.Says r) (hy : y.Says r) : x = y := by
  have hext : x.sign = y.sign → x.magnitude = y.magnitude → x = y := by
    intro hsign hmagnitude
    cases x
    cases y
    cases hsign
    cases hmagnitude
    rfl
  cases r with
  | infinity negative =>
    obtain ⟨hx, hsx⟩ := hx
    obtain ⟨hy, hsy⟩ := hy
    exact hext (hsx.trans hsy.symm) ((beq_iff_eq.mp hx).trans (beq_iff_eq.mp hy).symm)
  | nan negative significand =>
    obtain ⟨hx, hsx, hfx⟩ := hx
    obtain ⟨hy, hsy, hfy⟩ := hy
    refine hext (hsx.trans hsy.symm) (BitVec.eq_of_toNat_eq ?_)
    rw [magnitude_eq, magnitude_eq, ((isNaN_iff_fields x).mp hx).1, ((isNaN_iff_fields y).mp hy).1,
      hfx, hfy]
  | number l =>
    obtain ⟨_, hsx, hvx⟩ := hx
    obtain ⟨_, hsy, hvy⟩ := hy
    have hsign := hsx.trans hsy.symm
    exact hext hsign (units_inj.mp (units_of_value hsign (hvx.trans hvy.symm)))

theorem text_inj (hm : 0 < m) {x y : Binary e m} : x.text = y.text ↔ x = y := by
  constructor
  · intro h
    obtain ⟨r, hx, hsx⟩ := exists_reading hm x
    obtain ⟨r', hy, hsy⟩ := exists_reading hm y
    rw [h, hy] at hx
    cases hx
    exact eq_of_says hsx hsy
  · rintro rfl
    rfl

end Binary
end WasmHost
