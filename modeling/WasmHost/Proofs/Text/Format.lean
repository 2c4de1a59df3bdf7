import WasmHost.Proofs.Binary.Nearest
import WasmHost.Proofs.Text.Float
import WasmHost.Value

/-!
# WasmHost.Proofs.Text.Format

The hexadecimal format of floats, as it is documented for a printer that is not looked into. It says
character by character what is written for which fields of a float: the sign, the names of what is
no number, and the digits of the fraction with the power of two. What the text means, and that it
tells floats apart, is not in it.

* `HexFormat`: the format. `Plain`: what a printed line needs of it.
* `hexFormat_text`: the host that runs has a printer of the format.
* `HexFormat.eq_text`: the format leaves no other printer.
* `HexFormat.plain`: texts of the format are plain.
-/

namespace WasmHost
namespace Text

variable {e m : Nat}

/-- A finite value that is not zero, behind its sign: the digit 1, the digits behind the point if
there are any, and the power of two in decimal. -/
def finiteText (digits : List Char) (exponent : Int) : List Char :=
  ['0', 'x', '1'] ++ (if digits = [] then [] else '.' :: digits) ++ ['p'] ++
    (if exponent < 0 then '-' else '+') :: Nat.toDigits 10 exponent.natAbs

/-- What is documented of a printer. The fraction of a subnormal value is what follows its first
one, moved to the front of the field. -/
structure HexFormat (print : Binary e m → List Char) : Prop where
  infinity : ∀ x, x.exponent = 2 ^ e - 1 → x.fraction = 0 →
    print x = signText x.sign ++ ['i', 'n', 'f']
  canonicalNaN : ∀ x, x.exponent = 2 ^ e - 1 → x.fraction = 2 ^ (m - 1) →
    print x = signText x.sign ++ ['n', 'a', 'n']
  nan : ∀ x, x.exponent = 2 ^ e - 1 → x.fraction ≠ 0 → x.fraction ≠ 2 ^ (m - 1) →
    print x = signText x.sign ++ ['n', 'a', 'n', ':', '0', 'x'] ++ Hex.digits x.fraction
  zero : ∀ x, x.exponent = 0 → x.fraction = 0 →
    print x = signText x.sign ++ ['0', 'x', '0', 'p', '+', '0']
  normal : ∀ x, x.exponent ≠ 0 → x.exponent ≠ 2 ^ e - 1 →
    print x = signText x.sign ++
      finiteText (Binary.fractionText m x.fraction) (x.exponent - Binary.bias e)
  subnormal : ∀ x, x.exponent = 0 → x.fraction ≠ 0 →
    print x = signText x.sign ++
      finiteText
        (Binary.fractionText m
          ((x.fraction - 2 ^ x.fraction.log2) * 2 ^ (m - x.fraction.log2)))
        (x.fraction.log2 - (Binary.bias e - 1 + m : Nat))

/-- Texts that tell floats apart and can stand between blanks. -/
structure Plain (print : Binary e m → List Char) : Prop where
  injective : Function.Injective print
  blank_not_mem : ∀ x, ' ' ∉ print x

end Text

namespace Binary

open Text (HexFormat Plain)

variable {e m : Nat}

/-! ## The digits of a value -/

theorem trailing_eq {n t : Nat} (h : Representable m n) (hn : n ≠ 0)
    (ht : n * 2 ^ m = (2 ^ m + t) * 2 ^ n.log2) : trailing m n = t := by
  rw [units_mul_two_pow h hn] at ht
  have hsum := Nat.eq_of_mul_eq_mul_right (Nat.two_pow_pos _) ht
  omega

theorem units_ne_zero {x : Binary e m} (h : x.exponent ≠ 0) : x.units ≠ 0 := by
  have hle := le_units h
  have hpos := Nat.two_pow_pos (m + x.exponent - 1)
  omega

theorem log2_units_of_normal {x : Binary e m} (h : x.exponent ≠ 0) :
    x.units.log2 = m + x.exponent - 1 := by
  rw [Nat.log2_eq_iff (units_ne_zero h)]
  have hstep : m + x.exponent - 1 + 1 = m + x.exponent := by omega
  rw [hstep]
  exact ⟨le_units h, x.units_lt⟩

theorem trailing_units_of_normal {x : Binary e m} (h : x.exponent ≠ 0) :
    trailing m x.units = x.fraction := by
  apply trailing_eq (representable_units x) (units_ne_zero h)
  rw [log2_units_of_normal h, units_of_exponent_ne_zero h, Nat.mul_assoc, ← Nat.pow_add]
  congr 2
  omega

theorem trailing_units_of_subnormal {x : Binary e m} (h : x.exponent = 0) (hf : x.fraction ≠ 0) :
    trailing m x.units = (x.fraction - 2 ^ x.fraction.log2) * 2 ^ (m - x.fraction.log2) := by
  have hunits := units_of_exponent_eq_zero h
  have hlog : x.fraction.log2 < m := (Nat.log2_lt hf).mpr x.fraction_lt
  have hlow : 2 ^ x.fraction.log2 ≤ x.fraction := Nat.log2_self_le hf
  have hpow : 2 ^ (m - x.fraction.log2) * 2 ^ x.fraction.log2 = 2 ^ m := by
    rw [← Nat.pow_add]
    congr 1
    omega
  apply trailing_eq (representable_units x) (by rwa [hunits])
  rw [hunits, Nat.add_mul, Nat.mul_assoc, hpow, Nat.mul_comm (2 ^ m) (2 ^ x.fraction.log2),
    ← Nat.add_mul, Nat.add_sub_cancel' hlow]

/-! ## The printer of the format -/

theorem not_isNaN_of_exponent {x : Binary e m} (h : x.exponent ≠ 2 ^ e - 1) : x.isNaN = false := by
  rw [← Bool.not_eq_true, isNaN_iff_fields]
  exact fun hfields => h hfields.1

theorem not_isInfinite_of_exponent {x : Binary e m} (h : x.exponent ≠ 2 ^ e - 1) :
    x.isInfinite = false := by
  rw [← Bool.not_eq_true, isInfinite_iff_fields]
  exact fun hfields => h hfields.1

theorem exponent_ne_full_of_zero {x : Binary e m} (he : 1 < e) (h : x.exponent = 0) :
    x.exponent ≠ 2 ^ e - 1 := by
  have hpow := Nat.pow_le_pow_right (n := 2) (by decide) he
  omega

theorem literal_of_units {x : Binary e m} (h : x.exponent ≠ 2 ^ e - 1) (hx : x.units ≠ 0) :
    x.literal = .normal (fractionText m (trailing m x.units))
      (x.units.log2 - (bias e - 1 + m : Nat)) := by
  simp [literal, not_isNaN_of_exponent h, not_isInfinite_of_exponent h, hx, trailing]

theorem text_normal (digits : List Char) (n : Int) :
    (Literal.normal digits n).text = Text.finiteText digits n := rfl

theorem hexFormat_text (he : 1 < e) (hm : 0 < m) : HexFormat (text : Binary e m → List Char) where
  infinity x hexp hfrac := by
    have hinf := (isInfinite_iff_fields x).mpr ⟨hexp, hfrac⟩
    rw [text_eq, literal, isNaN_of_isInfinite hinf, hinf]
    rfl
  canonicalNaN x hexp hfrac := by
    have hcanonical := (isCanonicalNaN_iff_fields hm x).mpr ⟨hexp, hfrac⟩
    have hne : x.fraction ≠ 0 := hfrac ▸ (Nat.two_pow_pos _).ne'
    have hnan := (isNaN_iff_fields x).mpr ⟨hexp, hne⟩
    rw [text_eq, literal, hnan, hcanonical]
    rfl
  nan x hexp hne hother := by
    have hnan := (isNaN_iff_fields x).mpr ⟨hexp, hne⟩
    have hcanonical : ¬ x.isCanonicalNaN = true :=
      fun h => hother ((isCanonicalNaN_iff_fields hm x).mp h).2
    rw [text_eq, literal, if_pos hnan, if_neg hcanonical, List.append_assoc]
    rfl
  zero x hexp hfrac := by
    have hfull := exponent_ne_full_of_zero he hexp
    have hunits : x.units = 0 := (units_of_exponent_eq_zero hexp).trans hfrac
    rw [text_eq, literal, not_isNaN_of_exponent hfull, not_isInfinite_of_exponent hfull, hunits]
    rfl
  normal x hexp hfull := by
    have hbias := bias_pos he
    have hexponent : (x.units.log2 : Int) - (bias e - 1 + m : Nat) = x.exponent - bias e := by
      rw [log2_units_of_normal hexp]
      omega
    rw [text_eq, literal_of_units hfull (units_ne_zero hexp), trailing_units_of_normal hexp,
      hexponent, text_normal]
  subnormal x hexp hfrac := by
    have hfull := exponent_ne_full_of_zero he hexp
    have hunits := units_of_exponent_eq_zero hexp
    rw [text_eq, literal_of_units hfull (by rwa [hunits]), trailing_units_of_subnormal hexp hfrac,
      hunits, text_normal]

end Binary

namespace Text

variable {e m : Nat} {print print' : Binary e m → List Char}

/-- Every float has fields that the format says something about. -/
theorem HexFormat.unique (h : HexFormat print) (h' : HexFormat print') (x : Binary e m) :
    print x = print' x := by
  by_cases hfull : x.exponent = 2 ^ e - 1
  · by_cases hinf : x.fraction = 0
    · rw [h.infinity x hfull hinf, h'.infinity x hfull hinf]
    · by_cases hcanonical : x.fraction = 2 ^ (m - 1)
      · rw [h.canonicalNaN x hfull hcanonical, h'.canonicalNaN x hfull hcanonical]
      · rw [h.nan x hfull hinf hcanonical, h'.nan x hfull hinf hcanonical]
  · by_cases hexp : x.exponent = 0
    · by_cases hzero : x.fraction = 0
      · rw [h.zero x hexp hzero, h'.zero x hexp hzero]
      · rw [h.subnormal x hexp hzero, h'.subnormal x hexp hzero]
    · rw [h.normal x hexp hfull, h'.normal x hexp hfull]

theorem HexFormat.eq_text (h : HexFormat print) (he : 1 < e) (hm : 0 < m) (x : Binary e m) :
    print x = x.text :=
  h.unique (Binary.hexFormat_text he hm) x

end Text

/-! ## Plain texts -/

theorem Literal.blank_not_mem_exponentText (n : Int) : ' ' ∉ exponentText n := by
  unfold exponentText
  rw [List.mem_cons, not_or]
  refine ⟨?_, Text.Decimal.not_mem_toDigits (by decide) n.natAbs⟩
  split <;> decide

theorem Text.HexFloat.blank_not_mem_text (l : HexFloat) : ' ' ∉ l.text := by
  have hdigit : ∀ d, Hex.char d ≠ ' ' := by decide
  have hsign : ' ' ∉ signText l.negative := by cases l.negative <;> decide
  have hlead : ' ' ≠ Hex.char l.lead := (hdigit l.lead).symm
  have hfraction : ' ' ∉ (if l.fraction = [] then [] else '.' :: l.fraction.map Hex.char) := by
    split
    · exact List.not_mem_nil
    · rw [List.mem_cons, not_or]
      exact ⟨by decide, Hex.not_mem_map_char hdigit l.fraction⟩
  have hexponent := Literal.blank_not_mem_exponentText l.exponent
  simp [text, hsign, hlead, hfraction, hexponent]

namespace Binary

variable {e m : Nat}

theorem blank_not_mem_text (x : Binary e m) : ' ' ∉ x.text := by
  have hsign : ' ' ∉ Text.signText x.sign := by cases x.sign <;> decide
  cases hnan : x.isNaN with
  | true =>
    have hdigits := Text.Hex.not_mem_digits (c := ' ') (by decide) x.fraction
    rw [text_eq, List.mem_append, not_or]
    refine ⟨hsign, ?_⟩
    rw [literal, if_pos hnan]
    split
    · decide
    · simp [Literal.text, hdigits]
  | false =>
    rcases isFinite_or_isInfinite hnan with hfin | hinf
    · obtain ⟨l, htext, _⟩ := text_of_isFinite hfin
      rw [htext]
      exact l.blank_not_mem_text
    · have hliteral : x.literal = .infinity := by simp [literal, hnan, hinf]
      rw [text_eq, hliteral, List.mem_append, not_or]
      exact ⟨hsign, by decide⟩

end Binary

theorem Text.HexFormat.plain {e m : Nat} {print : Binary e m → List Char} (h : HexFormat print)
    (he : 1 < e) (hm : 0 < m) : Plain print where
  injective := by
    intro x y hxy
    rw [h.eq_text he hm, h.eq_text he hm] at hxy
    exact (Binary.text_inj hm).mp hxy
  blank_not_mem := by
    intro x
    rw [h.eq_text he hm]
    exact x.blank_not_mem_text

/-! ## Printers for both formats -/

namespace FloatPrinter

structure Documented (p : FloatPrinter) : Prop where
  f32 : Text.HexFormat p.f32
  f64 : Text.HexFormat p.f64

structure Plain (p : FloatPrinter) : Prop where
  f32 : Text.Plain p.f32
  f64 : Text.Plain p.f64

theorem documented_hexadecimal : hexadecimal.Documented :=
  ⟨Binary.hexFormat_text (by decide) (by decide), Binary.hexFormat_text (by decide) (by decide)⟩

theorem Documented.plain {p : FloatPrinter} (h : p.Documented) : p.Plain :=
  ⟨h.f32.plain (by decide) (by decide), h.f64.plain (by decide) (by decide)⟩

end FloatPrinter
end WasmHost
