import WasmHost.Numeric.Eval
import WasmHost.Proofs.Numeric.Conversion
import WasmHost.Proofs.Numeric.Truncation

/-!
# WasmHost.Proofs.Numeric.RoundTrip

Unsigned words to floats and back, and floats to words and back. The guards of the truncations, the
floats put together from bits and the rounding of floats are written apart from each other; that
they agree comes down to one number, that to which a word is rounded.

* `truncate_convert`, `truncateSat_convert`: a word there and back.
* `rounding_of_words_shows_in_the_round_trip`: where the way back fails, and where it loses bits.
* `truncation_agrees_with_float_rounding`: a float there and back.
-/

namespace WasmHost
namespace Numeric

open Binary

/-- Converting a word and cutting the float again: from `bound` on there is no word for it, and
below it the word that comes back is the one sent just where the format has that number. No further
bits are lost on a second round. -/
structure ReturnsBelow (t : IntType) (f : FloatType) (bound : Nat) : Prop where
  overflow_iff : ∀ x : BitVec t.width,
    truncate t f .unsigned (convert f t x) = .error .intOverflow ↔ bound ≤ x.toNat
  returned : ∀ x : BitVec t.width, x.toNat < bound →
    ∃ y, truncate t f .unsigned (convert f t x) = .ok y ∧
      (y = x ↔ Representable f.fractionBits x.toNat) ∧
      convert f t y = convert f t x ∧
      truncateSat t f .unsigned (convert f t x) = y
  saturated : ∀ x : BitVec t.width, bound ≤ x.toNat →
    truncateSat t f .unsigned (convert f t x) = BitVec.allOnes t.width

/-! ## A word there and back -/

section

variable (t : IntType) (f : FloatType) (x : BitVec t.width)

/-- The exponents of both formats reach beyond all words. -/
theorem rounded_word_lt : rounded f.fractionBits x.toNat < 2 ^ (bias f.exponentBits + 1) := by
  have hwidth := t.width_le
  have hbias := f.le_bias
  exact Nat.lt_of_le_of_lt (rounded_le_of_lt x.isLt) (Nat.pow_lt_pow_right (by decide) (by omega))

theorem isNaN_convert : (convert f t x).isNaN = false := by
  rw [convert_eq]
  exact isNaN_of_isFinite (isFinite_nearest f.one_lt_exponentBits (rounded_word_lt t f x) false)

theorem truncated_convert : (convert f t x).truncated = rounded f.fractionBits x.toNat := by
  rw [convert_eq]
  exact truncated_nearest f.one_lt_exponentBits (rounded_word_lt t f x)

theorem truncate_convert :
    truncate t f .unsigned (convert f t x) =
      if rounded f.fractionBits x.toNat < 2 ^ t.width then
        .ok (BitVec.ofNat t.width (rounded f.fractionBits x.toNat))
      else
        .error .intOverflow := by
  have hpos := Nat.two_pow_pos t.width
  have hrange : Signedness.unsigned.lowest t.width ≤ (rounded f.fractionBits x.toNat : Int) ∧
      (rounded f.fractionBits x.toNat : Int) ≤ Signedness.unsigned.highest t.width ↔
        rounded f.fractionBits x.toNat < 2 ^ t.width := by
    simp only [Signedness.lowest, Signedness.highest]
    omega
  rw [truncate_eq t f _ _ (isNaN_convert t f x), truncated_convert, BitVec.ofInt_natCast]
  simp only [hrange]

theorem truncateSat_convert :
    truncateSat t f .unsigned (convert f t x) =
      BitVec.ofNat t.width (Min.min (2 ^ t.width - 1) (rounded f.fractionBits x.toNat)) := by
  have hpos := Nat.two_pow_pos t.width
  have hclamp : Max.max (Signedness.unsigned.lowest t.width)
      (Min.min (Signedness.unsigned.highest t.width) (rounded f.fractionBits x.toNat : Int)) =
        ((Min.min (2 ^ t.width - 1) (rounded f.fractionBits x.toNat) : Nat) : Int) := by
    simp only [Signedness.lowest, Signedness.highest]
    omega
  rw [truncateSat_eq, toWord_fitting t f _ _ (isNaN_convert t f x), truncated_convert, hclamp,
    BitVec.ofInt_natCast]

/-- The word to which a number is rounded is converted to the same float. -/
theorem convert_rounded (h : rounded f.fractionBits x.toNat < 2 ^ t.width) :
    convert f t (BitVec.ofNat t.width (rounded f.fractionBits x.toNat)) = convert f t x := by
  rw [convert_eq, convert_eq, BitVec.toNat_ofNat, Nat.mod_eq_of_lt h,
    nearest_rounded f.one_lt_exponentBits (rounded_word_lt t f x)]

theorem ofNat_rounded_eq_iff (h : rounded f.fractionBits x.toNat < 2 ^ t.width) :
    BitVec.ofNat t.width (rounded f.fractionBits x.toNat) = x ↔
      Representable f.fractionBits x.toNat := by
  rw [← rounded_eq_self_iff, ← BitVec.toNat_inj, BitVec.toNat_ofNat, Nat.mod_eq_of_lt h]

end

theorem returnsBelow {t : IntType} {f : FloatType} (h : f.fractionBits + 2 ≤ t.width) :
    ReturnsBelow t f (2 ^ t.width - 2 ^ (t.width - f.fractionBits - 2)) := by
  have hfits : ∀ x : BitVec t.width, rounded f.fractionBits x.toNat < 2 ^ t.width ↔
      x.toNat < 2 ^ t.width - 2 ^ (t.width - f.fractionBits - 2) := by
    intro x
    have hbound := two_pow_le_rounded_iff h x.isLt
    omega
  refine ⟨?_, ?_, ?_⟩
  · intro x
    rw [truncate_convert, ← Nat.not_lt, ← hfits]
    split
    · rename_i hlt
      simp [hlt]
    · rename_i hlt
      simp [hlt]
  · intro x hx
    rw [← hfits] at hx
    refine ⟨_, ?_, ofNat_rounded_eq_iff t f x hx, convert_rounded t f x hx, ?_⟩
    · rw [truncate_convert, if_pos hx]
    · rw [truncateSat_convert, Nat.min_eq_right (by omega)]
  · intro x hx
    rw [← Nat.not_lt, ← hfits] at hx
    rw [truncateSat_convert, Nat.min_eq_left (by omega)]
    have hpos := Nat.two_pow_pos t.width
    apply BitVec.eq_of_toNat_eq
    rw [BitVec.toNat_ofNat, BitVec.toNat_allOnes]
    exact Nat.mod_eq_of_lt (by omega)

/-- A format whose significand is as long as the word has the number of every word. -/
theorem returns_exactly {t : IntType} {f : FloatType} (h : t.width ≤ f.fractionBits + 1)
    (x : BitVec t.width) :
    truncate t f .unsigned (convert f t x) = .ok x ∧
      truncateSat t f .unsigned (convert f t x) = x := by
  have hlt := x.isLt
  have hself : rounded f.fractionBits x.toNat = x.toNat :=
    rounded_of_representable
      (representable_of_lt (Nat.lt_of_lt_of_le hlt (Nat.pow_le_pow_right (by decide) h)))
  constructor
  · rw [truncate_convert, hself, if_pos hlt, BitVec.ofNat_toNat, BitVec.setWidth_eq]
  · rw [truncateSat_convert, hself, Nat.min_eq_right (by omega), BitVec.ofNat_toNat,
      BitVec.setWidth_eq]

/-- A word of 32 bits comes back from a float of 64 as it was. From all other floats a word comes
back as it was if the format has its number, and as the number next to it otherwise; where that
number is the next power of two, there is no word to come back. The saturating truncation gives the
same word, and the greatest one where there is none. -/
theorem rounding_of_words_shows_in_the_round_trip :
    (∀ x : BitVec 32, truncate .i32 .f64 .unsigned (convert .f64 .i32 x) = .ok x ∧
      truncateSat .i32 .f64 .unsigned (convert .f64 .i32 x) = x) ∧
    ReturnsBelow .i32 .f32 (2 ^ 32 - 2 ^ 7) ∧
    ReturnsBelow .i64 .f32 (2 ^ 64 - 2 ^ 39) ∧
    ReturnsBelow .i64 .f64 (2 ^ 64 - 2 ^ 10) :=
  ⟨returns_exactly (t := .i32) (f := .f64) (by decide), returnsBelow (by decide),
    returnsBelow (by decide), returnsBelow (by decide)⟩

-- the last word that comes back, as the number next to it, and the first that does not
example : truncate .i32 .f32 .unsigned (convert .f32 .i32 4294967167) = .ok 4294967040 ∧
    truncate .i32 .f32 .unsigned (convert .f32 .i32 4294967168) = .error .intOverflow :=
  ⟨rfl, rfl⟩

/-! ## A float there and back -/

section

variable (t : IntType) (f : FloatType) {x : Binary f.exponentBits f.fractionBits}

theorem of_truncate_unsigned {n : BitVec t.width} (hx : x.isNaN = false)
    (h : truncate t f .unsigned x = .ok n) :
    0 ≤ x.truncated ∧ x.truncated < (2 ^ t.width : Nat) ∧ n = BitVec.ofInt t.width x.truncated := by
  rw [truncate_eq t f .unsigned x hx] at h
  split at h
  · rename_i hrange
    cases h
    obtain ⟨hlow, hhigh⟩ := hrange
    simp only [Signedness.lowest, Signedness.highest] at hlow hhigh
    exact ⟨hlow, by omega, rfl⟩
  · cases h

theorem isFinite_of_truncated_lt (hx : x.isNaN = false) (hlow : 0 ≤ x.truncated)
    (hhigh : x.truncated < (2 ^ t.width : Nat)) : x.isFinite = true := by
  refine (isFinite_or_isInfinite hx).resolve_right fun hinf => ?_
  have hbeyond := truncated_beyond_words (Nat.le_trans (by decide) f.le_bias) t.width_le .unsigned
    hinf
  simp only [Signedness.lowest, Signedness.highest] at hbeyond
  split at hbeyond <;> omega

/-- Where the whole part of a float is the number of a word, the word is converted to the float
without its fraction and its sign. -/
theorem convert_of_truncated (hfin : x.isFinite = true) (hlow : 0 ≤ x.truncated)
    (hhigh : x.truncated < (2 ^ t.width : Nat)) :
    convert f t (BitVec.ofInt t.width x.truncated) = x.trunc.abs := by
  have hwhole : x.truncated = (x.integral .towardZero : Int) := by
    unfold truncated at hlow ⊢
    cases hs : x.sign with
    | false => rfl
    | true =>
      rw [hs, if_pos rfl] at hlow
      rw [if_pos rfl]
      omega
  rw [hwhole] at hhigh ⊢
  rw [BitVec.ofInt_natCast, convert_eq, BitVec.toNat_ofNat,
    Nat.mod_eq_of_lt (Int.ofNat_lt.mp hhigh), trunc_of_isFinite hfin, Binary.abs]

end

/-- Where a truncation to an unsigned word answers, the word converted back is the float rounded
toward zero and without its sign. And no truncation, to a signed or an unsigned word, tells a float
from the one that it is rounded to, whether it answers or traps. -/
theorem truncation_agrees_with_float_rounding (t : IntType) (f : FloatType)
    (x : Binary f.exponentBits f.fractionBits) :
    (∀ n, truncate t f .unsigned x = .ok n →
      convert f t n = FloatUnaryOp.abs.eval (FloatUnaryOp.trunc.eval x)) ∧
    (∀ s, truncate t f s (FloatUnaryOp.trunc.eval x) = truncate t f s x) := by
  have he : 1 < f.exponentBits := by cases f <;> decide
  have hm : 0 < f.fractionBits := by cases f <;> decide
  simp only [FloatUnaryOp.eval]
  have htrunc := isNaN_trunc hm x
  cases hx : x.isNaN with
  | true =>
    rw [hx] at htrunc
    refine ⟨fun n h => ?_, fun s => ?_⟩
    · rw [truncate_of_isNaN t f _ x hx] at h
      cases h
    · rw [truncate_of_isNaN t f s x hx, truncate_of_isNaN t f s x.trunc htrunc]
  | false =>
    rw [hx] at htrunc
    refine ⟨fun n h => ?_, fun s => ?_⟩
    · obtain ⟨hlow, hhigh, rfl⟩ := of_truncate_unsigned t f hx h
      exact convert_of_truncated t f (isFinite_of_truncated_lt t f hx hlow hhigh) hlow hhigh
    · rw [truncate_eq t f s x hx, truncate_eq t f s x.trunc htrunc, truncated_trunc he hx]

/-- Minus three quarters is cut to zero, and zero is converted to the zero without a sign. -/
theorem three_quarters_below_zero :
    truncate .i32 .f32 .unsigned (.ofBits 0xBF400000#32) = .ok 0 ∧
      convert .f32 .i32 0 =
        FloatUnaryOp.abs.eval (FloatUnaryOp.trunc.eval (.ofBits 0xBF400000#32)) := by
  have hcut : truncate .i32 .f32 .unsigned (.ofBits 0xBF400000#32) = .ok 0 := rfl
  exact ⟨hcut, (truncation_agrees_with_float_rounding .i32 .f32 _).1 0 hcut⟩

end Numeric
end WasmHost
