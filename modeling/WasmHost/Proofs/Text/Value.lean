import WasmHost.Memory.Access
import WasmHost.Proofs.Text.Format

/-!
# WasmHost.Proofs.Text.Value

The text of a value is faithful: two values have one text only if they are the same, and type,
number and payload can be read from it. So a failed comparison of values never logs one text for
both. Of the printer for floats only the documented format is used.

* `textWith_eq_iff`: texts tell values apart, if the printer tells floats apart.
* `text_is_faithful`: and what is in them.
-/

namespace WasmHost
namespace Value

open Text (HexFloat HexFormat Reading)

/-- An integer in decimal, without leading zeros. -/
structure DecimalText (n : Int) (s : List Char) : Prop where
  digits : s = (if n < 0 then ['-'] else []) ++ Nat.toDigits 10 n.natAbs
  reads : Text.Decimal.integer? s = some n

/-- A float as a normalised literal of its exact value. What is no number has its sign and the whole
significand in the text. -/
structure FloatText {e m : Nat} (x : Binary e m) (s : List Char) : Prop where
  finite : x.isFinite = true → ∃ l : HexFloat, s = l.text ∧
    Reading.ofText? m s = some (.number l) ∧ l.negative = x.sign ∧ l.value = x.value ∧ l.Normal
  infinite : x.isInfinite = true → Reading.ofText? m s = some (.infinity x.sign)
  nan : x.isNaN = true → Reading.ofText? m s = some (.nan x.sign x.fraction)

/-- What the text behind the colon is. -/
def PayloadText : Value → List Char → Prop
  | .i32 x => DecimalText x.toInt
  | .i64 x => DecimalText x.toInt
  | .f32 x => FloatText x
  | .f64 x => FloatText x

theorem decimalText_repr (n : Int) : DecimalText n n.repr.toList := by
  refine ⟨?_, Text.Decimal.integer?_repr n⟩
  cases n with
  | ofNat n =>
    show (String.ofList (Nat.toDigits 10 n)).toList = _
    have hsign : ¬ Int.ofNat n < 0 := Int.not_lt.mpr (Int.natCast_nonneg n)
    rw [String.toList_ofList, if_neg hsign]
    rfl
  | negSucc n =>
    show ("-" ++ String.ofList (Nat.toDigits 10 (n + 1))).toList = _
    rw [if_pos (by omega)]
    simp

section

variable {e m : Nat}

theorem floatText_text (hm : 0 < m) (x : Binary e m) : FloatText x x.text := by
  refine ⟨?_, Binary.text_of_isInfinite, Binary.text_of_isNaN hm⟩
  intro h
  obtain ⟨l, htext, hfacts⟩ := Binary.text_of_isFinite h
  refine ⟨l, htext, ?_, hfacts⟩
  rw [htext]
  exact Reading.ofText?_text m l

theorem floatText_of_hexFormat {print : Binary e m → List Char} (h : HexFormat print) (he : 1 < e)
    (hm : 0 < m) (x : Binary e m) : FloatText x (print x) := by
  rw [h.eq_text he hm x]
  exact floatText_text hm x

end

section

variable {p : FloatPrinter}

theorem payloadText_spec (hp : p.Documented) (v : Value) : v.PayloadText (v.payloadText p) := by
  cases v with
  | i32 x => exact decimalText_repr x.toInt
  | i64 x => exact decimalText_repr x.toInt
  | f32 x => exact floatText_of_hexFormat hp.f32 (by decide) (by decide) x
  | f64 x => exact floatText_of_hexFormat hp.f64 (by decide) (by decide) x

theorem toList_textWith (v : Value) :
    (v.textWith p).toList = v.typ.name.toList ++ ':' :: v.payloadText p := by
  simp [textWith]

theorem typ_of_name {v w : Value} (h : v.typ.name = w.typ.name) : v.typ = w.typ := by
  have hread := ValType.ofName?_name v.typ
  rw [h, ValType.ofName?_name] at hread
  exact (Option.some.inj hread).symm

/-- The names of the types are of one length, so the colon stands in one place. -/
theorem typ_and_payload_of_text {v w : Value} (h : v.textWith p = w.textWith p) :
    v.typ = w.typ ∧ v.payloadText p = w.payloadText p := by
  have hlength : ∀ t : ValType, t.name.toList.length = 3 := by
    intro t
    cases t <;> rfl
  have hlist := congrArg String.toList h
  rw [toList_textWith, toList_textWith] at hlist
  obtain ⟨hname, hpayload⟩ := List.append_inj hlist ((hlength _).trans (hlength _).symm)
  exact ⟨typ_of_name (String.toList_inj.mp hname), (List.cons.inj hpayload).2⟩

theorem eq_of_repr {w : Nat} {x y : BitVec w} (h : x.toInt.repr.toList = y.toInt.repr.toList) :
    x = y := by
  have hx := Text.Decimal.integer?_repr x.toInt
  rw [h, Text.Decimal.integer?_repr] at hx
  exact BitVec.eq_of_toInt_eq (Option.some.inj hx).symm

theorem textWith_eq_iff (hp : p.Plain) {v w : Value} : v.textWith p = w.textWith p ↔ v = w := by
  constructor
  · intro h
    obtain ⟨htyp, hpayload⟩ := typ_and_payload_of_text h
    match v, w, htyp with
    | .i32 x, .i32 y, _ => exact congrArg Value.i32 (eq_of_repr hpayload)
    | .i64 x, .i64 y, _ => exact congrArg Value.i64 (eq_of_repr hpayload)
    | .f32 x, .f32 y, _ => exact congrArg Value.f32 (hp.f32.injective hpayload)
    | .f64 x, .f64 y, _ => exact congrArg Value.f64 (hp.f64.injective hpayload)
  · rintro rfl
    rfl

end

theorem eq_iff_typ_and_bits {v w : Value} : v = w ↔ v.typ = w.typ ∧ v.bits = w.bits := by
  constructor
  · rintro rfl
    exact ⟨rfl, rfl⟩
  · rintro ⟨htyp, hbits⟩
    rw [← ofBits_bits v, htyp, hbits, ofBits_bits]

/-- With any printer of the documented format, two values have one text exactly if they are of one
type and have the same bits. The text is the name of the type, a colon, and either the integer in
decimal or the float as described above. -/
theorem text_is_faithful (p : FloatPrinter) (hp : p.Documented) (v w : Value) :
    (v.textWith p = w.textWith p ↔ v = w) ∧ (v = w ↔ v.typ = w.typ ∧ v.bits = w.bits) ∧
      ∃ s, v.textWith p = v.typ.name ++ ":" ++ String.ofList s ∧ v.PayloadText s :=
  ⟨textWith_eq_iff hp.plain, eq_iff_typ_and_bits, v.payloadText p, rfl, payloadText_spec hp v⟩

/-- A canonical NaN, and a signalling one whose payload is one bit further. -/
theorem texts_of_two_nans :
    FloatPrinter.hexadecimal.Documented ∧
      (f32 (.ofBits 0x7FC00000#32)).text ≠ (f32 (.ofBits 0x7FA00000#32)).text ∧
      ∃ s, (f32 (.ofBits 0x7FA00000#32)).text = "f32:" ++ String.ofList s ∧
        Reading.ofText? 23 s = some (.nan false 0x200000) := by
  have hformat := FloatPrinter.documented_hexadecimal
  obtain ⟨hsame, _, _⟩ := text_is_faithful .hexadecimal hformat (f32 (.ofBits 0x7FC00000#32))
    (f32 (.ofBits 0x7FA00000#32))
  obtain ⟨_, _, s, htext, hread⟩ := text_is_faithful .hexadecimal hformat
    (f32 (.ofBits 0x7FA00000#32)) (f32 (.ofBits 0x7FC00000#32))
  refine ⟨hformat, fun h => absurd (hsame.mp h) (by decide), s, htext, ?_⟩
  exact hread.nan (by decide)

-- a subnormal number, a number of six digits and two NaNs
example : (f32 (.ofBits 0x00000003#32)).text = "f32:0x1.8p-148" ∧
    (f32 (.ofBits 0x40490FDB#32)).text = "f32:0x1.921fb6p+1" ∧
    (f32 (.ofBits 0xFFC00000#32)).text = "f32:-nan" ∧
    (f32 (.ofBits 0x7FA00000#32)).text = "f32:nan:0x200000" := by
  decide +kernel

end Value
end WasmHost
