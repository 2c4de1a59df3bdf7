import Mathlib.Data.List.Forall2
import Mathlib.Data.List.Basic
import WasmHost.Event
import WasmHost.Proofs.Text.Value
import WasmHost.Spectest

/-!
# WasmHost.Proofs.Text.Printed

Printed lines read back. The field stands in front of the first bracket, and what is between the
brackets is split at its blanks. No value is written with a blank or with nothing at all, so the
words are the texts of the arguments, each in its place, and these tell the arguments. All this
needs of the printer for floats is that its texts are plain.

* `Value.blank_not_mem_textWith`: no text of a value has a blank in it.
* `words_intercalate`: words are found again between the blanks, also if there are none.
* `reads_printedText`: the field and the words of a line.
* `printedText_inj`: so lines tell calls apart.
-/

namespace WasmHost

namespace Value

theorem blank_not_mem_repr (n : Int) : ' ' ∉ n.repr.toList := by
  rw [(decimalText_repr n).digits, List.mem_append, not_or]
  refine ⟨?_, Text.Decimal.not_mem_toDigits (by decide) n.natAbs⟩
  split <;> decide

variable {p : FloatPrinter}

theorem blank_not_mem_payloadText (hp : p.Plain) (v : Value) : ' ' ∉ v.payloadText p := by
  cases v with
  | i32 x => exact blank_not_mem_repr x.toInt
  | i64 x => exact blank_not_mem_repr x.toInt
  | f32 x => exact hp.f32.blank_not_mem x
  | f64 x => exact hp.f64.blank_not_mem x

theorem blank_not_mem_textWith (hp : p.Plain) (v : Value) : ' ' ∉ (v.textWith p).toList := by
  have hname : ∀ t : ValType, ' ' ∉ t.name.toList := by
    intro t
    cases t <;> decide
  rw [toList_textWith, List.mem_append, List.mem_cons, not_or, not_or]
  exact ⟨hname v.typ, by decide, blank_not_mem_payloadText hp v⟩

theorem textWith_ne_nil (v : Value) : (v.textWith p).toList ≠ [] := by
  rw [toList_textWith]
  simp

end Value

namespace Text
namespace Printed

/-- The words of a text, with one blank between each and the next. A text of nothing has none. -/
def words (s : List Char) : List (List Char) := if s = [] then [] else s.splitOn ' '

def field (line : List Char) : List Char := line.takeWhile (· != '(')

/-- The words between the first bracket and the one that ends the line. -/
def argTexts (line : List Char) : List (List Char) :=
  words ((line.dropWhile (· != '(')).drop 1).dropLast

theorem intercalate_ne_nil {ws : List (List Char)} (hws : ws ≠ []) (h : ∀ w ∈ ws, w ≠ []) :
    [' '].intercalate ws ≠ [] := by
  cases ws with
  | nil => exact absurd rfl hws
  | cons w ws =>
    have hw := h w List.mem_cons_self
    cases ws <;> simp [List.intercalate_cons_cons, hw]

theorem words_intercalate {ws : List (List Char)} (h : ∀ w ∈ ws, w ≠ [] ∧ ' ' ∉ w) :
    words ([' '].intercalate ws) = ws := by
  unfold words
  by_cases hws : ws = []
  · rw [hws, if_pos (by simp)]
  · rw [if_neg (intercalate_ne_nil hws fun w hw => (h w hw).1)]
    exact List.splitOn_intercalate ' ' (fun w hw => (h w hw).2) hws

end Printed
end Text

open Text

namespace Event

/-- What a line says about the call that printed it. -/
structure Reads (p : FloatPrinter) (line : String) (field : String) (args : List Value) : Prop where
  field : Printed.field line.toList = field.toList
  args : Printed.argTexts line.toList = args.map fun v => (v.textWith p).toList

section

variable {p : FloatPrinter} {field field' : String} {args args' : List Value}

theorem toList_printedText (field : String) (args : List Value) :
    (printedText p field args).toList =
      field.toList ++
        '(' :: ([' '].intercalate (args.map fun v => (v.textWith p).toList) ++ [')']) := by
  simp [printedText, Function.comp_def]

theorem reads_printedText (hp : p.Plain) (h : '(' ∉ field.toList) (args : List Value) :
    Reads p (printedText p field args) field args := by
  have hfield : ∀ c ∈ field.toList, (c != '(') = true := by
    intro c hc
    rw [bne_iff_ne]
    rintro rfl
    exact h hc
  have hbracket : ('(' != '(') = false := rfl
  have hwords : ∀ w ∈ args.map (fun v => (v.textWith p).toList), w ≠ [] ∧ ' ' ∉ w := by
    intro w hw
    obtain ⟨v, _, rfl⟩ := List.mem_map.mp hw
    exact ⟨v.textWith_ne_nil, v.blank_not_mem_textWith hp⟩
  constructor
  · rw [toList_printedText, Printed.field, List.takeWhile_append_of_pos hfield]
    simp
  · rw [toList_printedText, Printed.argTexts, List.dropWhile_append_of_pos hfield]
    simp only [List.dropWhile_cons, hbracket, Bool.false_eq_true, if_false, List.drop_one,
      List.tail_cons, List.dropLast_concat]
    exact Printed.words_intercalate hwords

theorem Reads.unique (hp : p.Plain) {line : String} (h : Reads p line field args)
    (h' : Reads p line field' args') : field = field' ∧ args = args' := by
  constructor
  · exact String.toList_inj.mp (h.field.symm.trans h'.field)
  · have htext : Function.Injective fun v : Value => (v.textWith p).toList :=
      fun _ _ heq => (Value.textWith_eq_iff hp).mp (String.toList_inj.mp heq)
    exact List.map_injective_iff.mpr htext (h.args.symm.trans h'.args)

theorem printedText_inj (hp : p.Plain) (h : '(' ∉ field.toList) (h' : '(' ∉ field'.toList) :
    printedText p field args = printedText p field' args' ↔ field = field' ∧ args = args' := by
  constructor
  · intro heq
    exact (reads_printedText hp h args).unique hp (heq ▸ reads_printedText hp h' args')
  · rintro ⟨rfl, rfl⟩
    rfl

/-- No print function has a bracket in its name. -/
theorem bracket_not_mem_of_mem_printFields (h : field ∈ Spectest.printFields) :
    '(' ∉ field.toList := by
  have hall : ∀ f ∈ Spectest.printFields, '(' ∉ f.toList := by decide
  exact hall field h

/-- Lists that are the same value by value are the same list. -/
theorem forall₂_beq_iff : List.Forall₂ (fun v w : Value => (v == w) = true) args args' ↔
    args = args' := by
  simp only [beq_iff_eq]
  rw [List.forall₂_eq_eq_eq]

end

end Event
end WasmHost
