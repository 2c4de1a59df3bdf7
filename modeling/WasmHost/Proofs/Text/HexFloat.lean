import Mathlib.Algebra.Field.Rat
import Mathlib.Tactic.FieldSimp
import WasmHost.Binary.Literal
import WasmHost.Proofs.Text.Numerals

/-!
# WasmHost.Proofs.Text.HexFloat

Hexadecimal float literals: how they are written, which number they stand for, and a reader for
them and for the names of what is no number. The reader knows nothing about formats, other than the
significand that the bare name of a NaN is short for.

* `HexFloat.value`: the number, exactly.
* `Reading.ofText?_text`: a literal reads back as it was written.
-/

namespace WasmHost
namespace Text

/-- A digit, the digits behind the point, and the power of two that they are scaled by. -/
structure HexFloat where
  negative : Bool
  lead : Fin 16
  fraction : List (Fin 16)
  exponent : Int
  deriving DecidableEq

/-- What the text of a float says. -/
inductive Reading where
  | infinity (negative : Bool)
  | nan (negative : Bool) (significand : Nat)
  | number (literal : HexFloat)
  deriving DecidableEq

def signText (negative : Bool) : List Char := if negative then ['-'] else []

namespace HexFloat

def text (l : HexFloat) : List Char :=
  signText l.negative ++ ['0', 'x', Hex.char l.lead] ++
    (if l.fraction = [] then [] else '.' :: l.fraction.map Hex.char) ++ ['p'] ++
    Literal.exponentText l.exponent

/-- The number that digits behind the point stand for. -/
def point (ds : List (Fin 16)) : ℚ := Hex.number ds / 16 ^ ds.length

def value (l : HexFloat) : ℚ :=
  (if l.negative then -1 else 1) * (((l.lead.val : ℚ) + point l.fraction) * 2 ^ l.exponent)

/-- Zero is written in one way, and all other numbers with the leading digit 1 and without zeros at
the end of the fraction. -/
structure Normal (l : HexFloat) : Prop where
  zero : l.value = 0 → l.lead = 0 ∧ l.fraction = [] ∧ l.exponent = 0
  nonzero : l.value ≠ 0 → l.lead = 1 ∧ l.fraction.getLast? ≠ some 0

theorem point_append_zeros (ds : List (Fin 16)) (j : Nat) :
    point (ds ++ List.replicate j 0) = point ds := by
  have hpos : (16 : ℚ) ^ j ≠ 0 := pow_ne_zero _ (by decide)
  unfold point
  rw [Hex.number_append_zeros, List.length_append, List.length_replicate, pow_add, Nat.cast_mul,
    Nat.cast_pow, Nat.cast_ofNat, mul_div_mul_right _ _ hpos]

end HexFloat

namespace Reading

def fraction? : List Char → Option (List (Fin 16))
  | [] => some []
  | '.' :: s => s.mapM Hex.digit?
  | _ => none

def exponent? : List Char → Option Int
  | 'p' :: '+' :: s => (Decimal.natural? s).map fun n : Nat => (n : Int)
  | 'p' :: '-' :: s => (Decimal.natural? s).map fun n : Nat => -(n : Int)
  | _ => none

/-- Reads what stands behind the leading digit of a literal. The fraction ends at the first `p`. -/
def number? (negative : Bool) (lead : Fin 16) (s : List Char) : Option Reading :=
  match fraction? (s.takeWhile (· != 'p')), exponent? (s.dropWhile (· != 'p')) with
  | some fraction, some exponent => some (.number ⟨negative, lead, fraction, exponent⟩)
  | _, _ => none

/-- Reads what stands behind the sign. A bare `nan` has the first of `m` significand bits set. -/
def unsigned? (m : Nat) (negative : Bool) : List Char → Option Reading
  | ['i', 'n', 'f'] => some (.infinity negative)
  | ['n', 'a', 'n'] => some (.nan negative (2 ^ (m - 1)))
  | 'n' :: 'a' :: 'n' :: ':' :: '0' :: 'x' :: s => (Hex.natural? s).map (.nan negative)
  | '0' :: 'x' :: c :: s => (Hex.digit? c).bind fun lead => number? negative lead s
  | _ => none

def ofText? (m : Nat) : List Char → Option Reading
  | '-' :: s => unsigned? m true s
  | s => unsigned? m false s

theorem exponent?_exponentText (n : Int) : exponent? ('p' :: Literal.exponentText n) = some n := by
  unfold Literal.exponentText
  by_cases hn : n < 0
  · rw [if_pos hn, exponent?, Decimal.natural?_toDigits, Option.map_some]
    congr 1
    omega
  · rw [if_neg hn, exponent?, Decimal.natural?_toDigits, Option.map_some]
    congr 1
    omega

theorem number?_text (negative : Bool) (lead : Fin 16) (fraction : List (Fin 16)) (n : Int) :
    number? negative lead ((if fraction = [] then [] else '.' :: fraction.map Hex.char) ++ ['p'] ++
      Literal.exponentText n) = some (.number ⟨negative, lead, fraction, n⟩) := by
  have hpoint : ∀ c ∈ (if fraction = [] then [] else '.' :: fraction.map Hex.char),
      (c != 'p') = true := by
    intro c hc
    by_cases hf : fraction = []
    · rw [if_pos hf] at hc
      cases hc
    · rw [if_neg hf, List.mem_cons, List.mem_map] at hc
      rcases hc with rfl | ⟨d, _, rfl⟩
      · rfl
      · simpa using Hex.char_ne_p d
  have hfraction : fraction? (if fraction = [] then [] else '.' :: fraction.map Hex.char) =
      some fraction := by
    by_cases hf : fraction = []
    · rw [if_pos hf, hf, fraction?]
    · rw [if_neg hf, fraction?, Hex.mapM_digit?_map_char]
  have hexponent := exponent?_exponentText n
  unfold number?
  rw [List.append_assoc, List.takeWhile_append_of_pos hpoint, List.dropWhile_append_of_pos hpoint]
  simp [hfraction, hexponent]

theorem ofText?_signText (m : Nat) (negative : Bool) {c : Char} (hc : c ≠ '-') (s : List Char) :
    ofText? m (signText negative ++ c :: s) = unsigned? m negative (c :: s) := by
  cases negative with
  | true => rfl
  | false =>
    show ofText? m (c :: s) = _
    unfold ofText?
    split
    · rename_i heq
      exact absurd (List.cons.inj heq).1 hc
    · rfl

/-- A literal reads back as it was written, whatever its digits. -/
theorem ofText?_text (m : Nat) (l : HexFloat) : ofText? m l.text = some (.number l) := by
  obtain ⟨negative, lead, fraction, n⟩ := l
  have hsign := ofText?_signText m negative (c := '0') (by decide)
    ('x' :: Hex.char lead ::
      ((if fraction = [] then [] else '.' :: fraction.map Hex.char) ++ ['p'] ++
        Literal.exponentText n))
  have htext : HexFloat.text ⟨negative, lead, fraction, n⟩ = signText negative ++
      '0' :: 'x' :: Hex.char lead ::
        ((if fraction = [] then [] else '.' :: fraction.map Hex.char) ++ ['p'] ++
          Literal.exponentText n) := by
    simp [HexFloat.text]
  rw [htext, hsign]
  show (Hex.digit? (Hex.char lead)).bind _ = _
  rw [Hex.digit?_char, Option.bind_some, number?_text]

end Reading

end Text
end WasmHost
