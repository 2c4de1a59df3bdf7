import WasmHost.Proofs.Binary.NaN
import WasmHost.Proofs.Text.Value

/-!
# WasmHost.Proofs.Binary.Classes

The NaNs of a format, as they are made, told apart and printed. Sign, exponent field and significand
field decide all of it, so each of these ways is put in terms of the fields and they are compared
there. The masks of the two formats are written out once, as the words that they are, and whatever
is done with them is what the fields say.

* `exponent_makeNaN`, `fraction_makeNaN`: what a payload is made into.
* `isArithmeticNaN_iff_fields`: the class that a single bit tells.
* `makeNaN_toBits`: a float whose exponent field is full is made of its own bits.
* `getLast?_text_iff`: only the text of a canonical NaN ends like its name.
* `nan_classes_agree`: all of it, for either format.
-/

namespace WasmHost

/-- The words by which NaNs are made and told apart. -/
structure Masks (w : Nat) where
  /-- All bits but the sign. -/
  magnitude : BitVec w
  exponent : BitVec w
  /-- The first significand bit. -/
  quiet : BitVec w
  /-- The exponent bits and the first significand bit. -/
  canonical : BitVec w

def FloatType.masks : (t : FloatType) → Masks (t.exponentBits + t.fractionBits + 1)
  | .f32 => ⟨0x7FFFFFFF#32, 0x7F800000#32, 0x00400000#32, 0x7FC00000#32⟩
  | .f64 => ⟨0x7FFFFFFFFFFFFFFF#64, 0x7FF0000000000000#64, 0x0008000000000000#64,
      0x7FF8000000000000#64⟩

namespace Binary

variable {e m : Nat}

/-- What is made of a payload: a float with its sign and its significand field, and all exponent
bits set. It is an infinity if the field is zero, and otherwise a NaN whose class the field
tells. -/
structure MadeOf {w : Nat} (payload : BitVec w) (x : Binary e m) : Prop where
  sign : x.sign = payload.msb
  exponent : x.exponent = 2 ^ e - 1
  fraction : x.fraction = payload.toNat % 2 ^ m
  isInfinite_iff : x.isInfinite = true ↔ payload.toNat % 2 ^ m = 0
  isNaN_iff : x.isNaN = true ↔ payload.toNat % 2 ^ m ≠ 0
  arithmetic_iff : Numeric.FloatTest.arithmeticNaN.holds x = true ↔ payload.getLsbD (m - 1) = true
  canonical_iff : Numeric.FloatTest.canonicalNaN.holds x = true ↔
    payload.toNat % 2 ^ m = 2 ^ (m - 1)

/-! ## The classes by fields -/

/-- The quiet bit of a float is the first bit of its significand field. -/
theorem fraction_ne_zero_of_getLsbD (hm : 0 < m) {x : Binary e m}
    (h : x.magnitude.getLsbD (m - 1) = true) : x.fraction ≠ 0 := by
  intro hzero
  have hbit : x.fraction.testBit (m - 1) = x.magnitude.getLsbD (m - 1) := by
    rw [fraction, Nat.testBit_mod_two_pow, decide_eq_true (by omega), Bool.true_and]
    rfl
  rw [← hbit, hzero, Nat.zero_testBit] at h
  contradiction

theorem isArithmeticNaN_iff_fields (hm : 0 < m) (x : Binary e m) :
    x.isArithmeticNaN = true ↔
      x.exponent = 2 ^ e - 1 ∧ x.magnitude.getLsbD (m - 1) = true := by
  constructor
  · intro h
    refine ⟨((isNaN_iff_fields x).mp (isNaN_of_isArithmeticNaN hm h)).1, ?_⟩
    rw [isArithmeticNaN, beq_iff_eq] at h
    have hbit := congrArg (BitVec.getLsbD · (m - 1)) h
    simp only [canonicalNaN, BitVec.getLsbD_and, BitVec.getLsbD_or, getLsbD_quietBit hm] at hbit
    simpa using hbit
  · rintro ⟨hexp, hquiet⟩
    have hnan := (isNaN_iff_fields x).mpr ⟨hexp, fraction_ne_zero_of_getLsbD hm hquiet⟩
    rw [isArithmeticNaN, beq_iff_eq]
    apply BitVec.eq_of_getLsbD_eq
    intro i hi
    simp only [canonicalNaN, BitVec.getLsbD_and, BitVec.getLsbD_or, getLsbD_infinity,
      getLsbD_quietBit hm]
    by_cases hlow : m ≤ i
    · simp [getLsbD_of_isNaN hnan hlow hi, hlow, hi]
    · by_cases hfirst : i = m - 1
      · simp [hfirst, hquiet]
      · simp [hfirst, hlow]

/-! ## What is made of a payload -/

section

variable (payload : BitVec (e + m + 1))

theorem fraction_ofBits : (ofBits payload : Binary e m).fraction = payload.toNat % 2 ^ m := by
  rw [fraction, ofBits, BitVec.toNat_setWidth,
    Nat.mod_mod_of_dvd _ (Nat.pow_dvd_pow 2 (Nat.le_add_left m e))]

theorem exponent_makeNaN : (makeNaN payload : Binary e m).exponent = 2 ^ e - 1 := by
  have hfull : (makeNaN payload : Binary e m).exponent =
      (ofBits payload : Binary e m).exponent ||| (2 ^ e - 1) := by
    rw [exponent, makeNaN, BitVec.toNat_or, toNat_infinity, Nat.or_div_two_pow,
      Nat.mul_div_cancel _ (Nat.two_pow_pos m)]
    rfl
  have hlt := (makeNaN payload : Binary e m).exponent_lt
  have hge : 2 ^ e - 1 ≤ (makeNaN payload : Binary e m).exponent := hfull ▸ Nat.right_le_or
  omega

theorem fraction_makeNaN :
    (makeNaN payload : Binary e m).fraction = (ofBits payload : Binary e m).fraction := by
  rw [fraction, makeNaN, BitVec.toNat_or, toNat_infinity, Nat.or_mod_two_pow, Nat.mul_mod_left,
    Nat.or_zero]
  rfl

theorem getLsbD_makeNaN (hm : 0 < m) :
    (makeNaN payload : Binary e m).magnitude.getLsbD (m - 1) = payload.getLsbD (m - 1) := by
  simp only [makeNaN, ofBits, BitVec.getLsbD_or, BitVec.getLsbD_setWidth, getLsbD_infinity]
  simp [show m - 1 < e + m by omega, show ¬ m ≤ m - 1 by omega]

theorem madeOf_makeNaN (hm : 0 < m) : MadeOf payload (makeNaN payload : Binary e m) where
  sign := rfl
  exponent := exponent_makeNaN payload
  fraction := (fraction_makeNaN payload).trans (fraction_ofBits payload)
  isInfinite_iff := by
    rw [isInfinite_iff_fields, exponent_makeNaN, fraction_makeNaN, fraction_ofBits]
    exact and_iff_right rfl
  isNaN_iff := by
    rw [isNaN_iff_fields, exponent_makeNaN, fraction_makeNaN, fraction_ofBits]
    exact and_iff_right rfl
  arithmetic_iff := by
    have hfields := isArithmeticNaN_iff_fields hm (makeNaN payload : Binary e m)
    rw [exponent_makeNaN, getLsbD_makeNaN payload hm] at hfields
    exact hfields.trans (and_iff_right rfl)
  canonical_iff := by
    have hfields := isCanonicalNaN_iff_fields hm (makeNaN payload : Binary e m)
    rw [exponent_makeNaN, fraction_makeNaN, fraction_ofBits] at hfields
    exact hfields.trans (and_iff_right rfl)

end

theorem exponent_of_isNaN_or_isInfinite {x : Binary e m}
    (h : x.isNaN = true ∨ x.isInfinite = true) : x.exponent = 2 ^ e - 1 := by
  rcases h with hnan | hinf
  · exact ((isNaN_iff_fields x).mp hnan).1
  · exact ((isInfinite_iff_fields x).mp hinf).1

/-- Quieting a signalling NaN sets one more bit of a payload that was not zero. -/
theorem isCanonicalNaN_quiet_eq_false (hm : 0 < m) {x : Binary e m} (hnan : x.isNaN = true)
    (hsignalling : x.isArithmeticNaN = false) : x.quiet.isCanonicalNaN = false := by
  rw [← Bool.not_eq_true, isCanonicalNaN_quiet hm hnan]
  intro hcanonical
  rw [isArithmeticNaN_of_isCanonicalNaN hcanonical] at hsignalling
  contradiction

theorem makeNaN_toBits {x : Binary e m} (h : x.isNaN = true ∨ x.isInfinite = true) :
    makeNaN x.toBits = x := by
  refine eq_of_fields ?_ ?_ ?_
  · rw [makeNaN, ofBits_toBits]
  · rw [exponent_makeNaN, exponent_of_isNaN_or_isInfinite h]
  · rw [fraction_makeNaN, ofBits_toBits]

/-! ## Masks -/

theorem masks_eq (t : FloatType) :
    t.masks = ⟨BitVec.cons false (BitVec.allOnes _), BitVec.cons false (infinity _ _),
      BitVec.cons false (quietBit _ _), BitVec.cons false (canonicalNaN _ _)⟩ := by
  cases t with
  | f32 => rfl
  | f64 => rfl

/-- A mask without the sign bit says something about the magnitude only. -/
theorem toBits_and_eq_iff (x : Binary e m) (mask v : BitVec (e + m)) :
    x.toBits &&& BitVec.cons false mask = BitVec.cons false v ↔ x.magnitude &&& mask = v := by
  have hand : x.toBits &&& BitVec.cons false mask =
      (⟨false, x.magnitude &&& mask⟩ : Binary e m).toBits := by
    rw [toBits, BitVec.cons_and_cons, Bool.and_false, toBits]
  have hword : BitVec.cons false v = (⟨false, v⟩ : Binary e m).toBits := rfl
  rw [hand, hword, toBits_inj]
  simp

theorem toBits_or (x : Binary e m) (mask : BitVec (e + m)) :
    x.toBits ||| BitVec.cons false mask =
      (⟨x.sign, x.magnitude ||| mask⟩ : Binary e m).toBits := by
  rw [toBits, BitVec.cons_or_cons, Bool.or_false, toBits]

/-- What is done with the masks. -/
structure ByMasks (masks : Masks (e + m + 1)) (x : Binary e m) : Prop where
  canonical_iff : Numeric.FloatTest.canonicalNaN.holds x = true ↔
    x.toBits &&& masks.magnitude = masks.canonical
  arithmetic_iff : Numeric.FloatTest.arithmeticNaN.holds x = true ↔
    x.toBits &&& masks.canonical = masks.canonical
  quiet : x.quiet.toBits = x.toBits ||| masks.quiet
  made : (makeNaN x.toBits : Binary e m).toBits = x.toBits ||| masks.exponent

theorem byMasks (t : FloatType) (x : Binary t.exponentBits t.fractionBits) :
    ByMasks t.masks x where
  canonical_iff := by
    rw [masks_eq, toBits_and_eq_iff, BitVec.and_allOnes]
    exact beq_iff_eq
  arithmetic_iff := by
    rw [masks_eq, toBits_and_eq_iff]
    exact beq_iff_eq
  quiet := by
    rw [masks_eq, toBits_or]
    rfl
  made := by
    rw [masks_eq, toBits_or, makeNaN, ofBits_toBits]

/-! ## Text -/

theorem literal_eq_canonicalNaN_iff (hm : 0 < m) (x : Binary e m) :
    x.literal = .canonicalNaN ↔ x.isCanonicalNaN = true := by
  constructor
  · intro h
    unfold literal at h
    split at h
    · split at h
      · assumption
      · cases h
    · split at h
      · cases h
      · split at h <;> cases h
  · intro h
    have hnan := isNaN_of_isArithmeticNaN hm (isArithmeticNaN_of_isCanonicalNaN h)
    simp [literal, hnan, h]

end Binary

theorem getLast?_append_ne {α : Type} {a : α} (s : List α) {t : List α} (hne : t ≠ [])
    (ha : a ∉ t) : (s ++ t).getLast? ≠ some a := by
  rw [List.getLast?_append_of_ne_nil s hne]
  exact fun h => ha (List.mem_of_getLast? h)

/-- The names of what is no number end in other letters, and all else ends in a digit. -/
theorem Literal.getLast?_text_iff (l : Literal) :
    l.text.getLast? = some 'n' ↔ l = .canonicalNaN := by
  cases l with
  | infinity => decide
  | canonicalNaN => decide
  | zero => decide
  | nan significand =>
    have hne : Text.Hex.digits significand ≠ [] := Nat.toDigits_ne_nil
    have hmem : 'n' ∉ Text.Hex.digits significand := Text.Hex.not_mem_digits (by decide) significand
    exact iff_of_false (getLast?_append_ne ['n', 'a', 'n', ':', '0', 'x'] hne hmem) (by simp)
  | normal fraction exponent =>
    have hne : Nat.toDigits 10 exponent.natAbs ≠ [] := Nat.toDigits_ne_nil
    have hmem : 'n' ∉ Nat.toDigits 10 exponent.natAbs :=
      Text.Decimal.not_mem_toDigits (by decide) exponent.natAbs
    have htext : (Literal.normal fraction exponent).text =
        (['0', 'x', '1'] ++ (if fraction = [] then [] else '.' :: fraction) ++ ['p'] ++
          [if exponent < 0 then '-' else '+']) ++ Nat.toDigits 10 exponent.natAbs := by
      simp [Literal.text, Literal.exponentText]
    rw [htext]
    exact iff_of_false (getLast?_append_ne _ hne hmem) (by simp)

theorem Literal.text_ne_nil (l : Literal) : l.text ≠ [] := by
  cases l <;> simp [Literal.text]

theorem Binary.getLast?_text_iff {e m : Nat} (hm : 0 < m) (x : Binary e m) :
    x.text.getLast? = some 'n' ↔ x.isCanonicalNaN = true := by
  rw [Binary.text, List.getLast?_append_of_ne_nil _ x.literal.text_ne_nil,
    Literal.getLast?_text_iff, literal_eq_canonicalNaN_iff hm]

namespace Value

variable {p : FloatPrinter}

theorem toList_textWith_ofFloat (hp : p.Documented) (t : FloatType)
    (x : Binary t.exponentBits t.fractionBits) :
    ((ofFloat t x).textWith p).toList = t.name.toList ++ ':' :: x.text := by
  have hpayload : (ofFloat t x).payloadText p = x.text := by
    cases t with
    | f32 => exact hp.f32.eq_text (by decide) (by decide) x
    | f64 => exact hp.f64.eq_text (by decide) (by decide) x
  rw [toList_textWith, typ_ofFloat, hpayload]
  cases t <;> rfl

theorem ofFloat_inj {t : FloatType} {x y : Binary t.exponentBits t.fractionBits} :
    ofFloat t x = ofFloat t y ↔ x = y := by
  cases t <;> simp [ofFloat]

/-- The text of a canonical NaN ends in its bare name, and no other text does. -/
theorem suffix_textWith_ofFloat_iff (hp : p.Documented) (t : FloatType)
    (x : Binary t.exponentBits t.fractionBits) :
    ['n', 'a', 'n'] <:+ ((ofFloat t x).textWith p).toList ↔ x.isCanonicalNaN = true := by
  have hm : 0 < t.fractionBits := t.fractionBits_pos
  rw [toList_textWith_ofFloat hp]
  constructor
  · rintro ⟨s, hs⟩
    have hlast := congrArg List.getLast? hs
    have hne : x.text ≠ [] := by simp [Binary.text, Literal.text_ne_nil]
    rw [List.getLast?_append_of_ne_nil _ (by simp), List.append_cons,
      List.getLast?_append_of_ne_nil _ hne] at hlast
    exact (Binary.getLast?_text_iff hm x).mp hlast.symm
  · intro h
    have hliteral := (Binary.literal_eq_canonicalNaN_iff hm x).mpr h
    refine ⟨t.name.toList ++ ':' :: (if x.sign then ['-'] else []), ?_⟩
    rw [Binary.text, hliteral]
    simp [Literal.text]

end Value

namespace Numeric

open Binary

section

variable (t : FloatType)

theorem eval_makeNaN (payload : BitVec t.bitsType.width) :
    ∃ x, (Op.makeNaN t).eval [.ofInt t.bitsType payload] = .ok (.value (.ofFloat t x)) ∧
      MadeOf payload x := by
  have hm : 0 < t.fractionBits := t.fractionBits_pos
  cases t with
  | f32 => exact ⟨makeNaN payload, rfl, madeOf_makeNaN payload hm⟩
  | f64 => exact ⟨makeNaN payload, rfl, madeOf_makeNaN payload hm⟩

variable {t} in
theorem eval_makeNaN_toBits {x : Binary t.exponentBits t.fractionBits}
    (h : x.isNaN = true ∨ x.isInfinite = true) :
    (Op.makeNaN t).eval [.ofInt t.bitsType (BitVec.ofNat _ x.toBits.toNat)] =
      .ok (.value (.ofFloat t x)) := by
  cases t with
  | f32 =>
    have hword : BitVec.ofNat 32 x.toBits.toNat = x.toBits :=
      BitVec.eq_of_toNat_eq (Nat.mod_eq_of_lt x.toBits.isLt)
    show Except.ok (Answer.value (.f32 (makeNaN (BitVec.ofNat 32 x.toBits.toNat)))) = _
    rw [hword, makeNaN_toBits h]
    rfl
  | f64 =>
    have hword : BitVec.ofNat 64 x.toBits.toNat = x.toBits :=
      BitVec.eq_of_toNat_eq (Nat.mod_eq_of_lt x.toBits.isLt)
    show Except.ok (Answer.value (.f64 (makeNaN (BitVec.ofNat 64 x.toBits.toNat)))) = _
    rw [hword, makeNaN_toBits h]
    rfl

theorem eval_isEqual (x y : Binary t.exponentBits t.fractionBits) :
    (Op.isEqual t).eval [.ofFloat t x, .ofFloat t y] =
      .ok (.flag (Value.ofFloat t x == Value.ofFloat t y)) := by
  have heval : (Op.isEqual t).eval [.ofFloat t x, .ofFloat t y] = .ok (.flag (x == y)) := by
    cases t <;> rfl
  have hsame : (x == y) = (Value.ofFloat t x == Value.ofFloat t y) := by
    rw [Bool.eq_iff_iff, beq_iff_eq, beq_iff_eq, Value.ofFloat_inj]
  rw [heval, hsame]

end

/-- The classes of NaNs, as they are for one float. -/
structure Classified (p : FloatPrinter) (t : FloatType)
    (x : Binary t.exponentBits t.fractionBits) : Prop where
  arithmetic : FloatTest.canonicalNaN.holds x = true → FloatTest.arithmeticNaN.holds x = true
  isNaN : FloatTest.arithmeticNaN.holds x = true → x.isNaN = true
  quieted : x.isNaN = true → FloatTest.arithmeticNaN.holds x = false →
    FloatTest.arithmeticNaN.holds x.quiet = true ∧ FloatTest.canonicalNaN.holds x.quiet = false
  masks : ByMasks t.masks x
  text : FloatTest.canonicalNaN.holds x = true ↔
    ['n', 'a', 'n'] <:+ ((Value.ofFloat t x).textWith p).toList

theorem classified {p : FloatPrinter} (hp : p.Documented) (t : FloatType)
    (x : Binary t.exponentBits t.fractionBits) : Classified p t x where
  arithmetic := isArithmeticNaN_of_isCanonicalNaN
  isNaN := isNaN_of_isArithmeticNaN t.fractionBits_pos
  quieted hnan hsignalling :=
    ⟨isArithmeticNaN_quiet hnan, isCanonicalNaN_quiet_eq_false t.fractionBits_pos hnan hsignalling⟩
  masks := byMasks t x
  text := (Value.suffix_textWith_ofFloat_iff hp t x).symm

/-- In either format. A payload, whatever bits it has, is made into a float with its sign, all
exponent bits set and its significand field: an infinity if that is zero, and otherwise a NaN,
arithmetic exactly if its quiet bit is set and canonical exactly if that is all of the field. NaNs
and infinities are made of their own bits. Canonical NaNs are arithmetic, arithmetic ones are NaNs,
and the other NaNs become arithmetic and not canonical when they are quieted. With any printer of
the documented format, a float is a canonical NaN exactly if its text ends in the bare name of a
NaN. Two floats are equal exactly if the values are, that is if all bits are. -/
theorem nan_classes_agree (p : FloatPrinter) (hp : p.Documented) (t : FloatType) :
    (∀ payload : BitVec t.bitsType.width, ∃ x,
      (Op.makeNaN t).eval [.ofInt t.bitsType payload] = .ok (.value (.ofFloat t x)) ∧
        MadeOf payload x) ∧
    (∀ x : Binary t.exponentBits t.fractionBits, x.isNaN = true ∨ x.isInfinite = true →
      (Op.makeNaN t).eval [.ofInt t.bitsType (BitVec.ofNat _ x.toBits.toNat)] =
        .ok (.value (.ofFloat t x))) ∧
    (∀ c x, (Op.test c t).eval [.ofFloat t x] = .ok (.flag (c.holds x))) ∧
    (∀ x, Classified p t x) ∧
    ∀ x y, (Op.isEqual t).eval [.ofFloat t x, .ofFloat t y] =
        .ok (.flag (Value.ofFloat t x == Value.ofFloat t y)) ∧
      (Value.ofFloat t x = Value.ofFloat t y ↔ x.toBits = y.toBits) := by
  refine ⟨eval_makeNaN t, fun x h => eval_makeNaN_toBits h, fun c x => ?_, classified hp t,
    fun x y => ⟨eval_isEqual t x y, Value.ofFloat_inj.trans toBits_inj.symm⟩⟩
  cases t <;> rfl

/-- The payload of a signalling NaN with its exponent bits set already. Its text does not end like
that of a canonical one. -/
theorem negative_nan_of_its_bits :
    FloatPrinter.hexadecimal.Documented ∧ (ofBits 0xFFA00001#32 : F32).isNaN = true ∧
      (Op.makeNaN .f32).eval [.i32 0xFFA00001#32] =
        .ok (.value (.f32 (ofBits 0xFFA00001#32))) ∧
      ¬ ['n', 'a', 'n'] <:+ (Value.f32 (ofBits 0xFFA00001#32)).text.toList := by
  have hformat := FloatPrinter.documented_hexadecimal
  have hnan : (ofBits 0xFFA00001#32 : F32).isNaN = true := by decide
  obtain ⟨_, hmade, _, hclasses, _⟩ := nan_classes_agree .hexadecimal hformat .f32
  refine ⟨hformat, hnan, hmade (ofBits 0xFFA00001#32) (.inl hnan), fun hends => ?_⟩
  exact absurd ((hclasses (ofBits 0xFFA00001#32)).text.mpr hends) (by decide)

end Numeric
end WasmHost
