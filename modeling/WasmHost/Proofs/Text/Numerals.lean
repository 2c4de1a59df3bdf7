import Mathlib.Data.List.Induction
import WasmHost.ValType
import WasmHost.Text.Hex

/-!
# WasmHost.Proofs.Text.Numerals

Numerals read back. A reader is given for each way in which numbers are written, and what is written
reads as the number it was written for.

* `Decimal.integer?_repr`: integers in decimal.
* `Hex.natural?_digits`: natural numbers in hexadecimal.
* `Hex.exists_fixed`, `Hex.exists_dropTrailingZeros`: digits behind a point. Their values stay the
  same when the zeros at the end go.
-/

namespace WasmHost
namespace Text

namespace Decimal

def natural? (s : List Char) : Option Nat :=
  if s ≠ [] ∧ s.all Char.isDigit then some (Nat.ofDigitChars 10 s 0) else none

/-- A number with a sign in front, which is left out if the number is not negative. -/
def integer? : List Char → Option Int
  | '-' :: s => (natural? s).map fun n : Nat => -(n : Int)
  | s => (natural? s).map fun n : Nat => (n : Int)

theorem isDigit_of_mem {n : Nat} {c : Char} (h : c ∈ Nat.toDigits 10 n) : c.isDigit = true :=
  Nat.isDigit_of_mem_toDigits (by decide) (by decide) h

theorem not_mem_toDigits {c : Char} (hc : c.isDigit = false) (n : Nat) :
    c ∉ Nat.toDigits 10 n := by
  intro h
  rw [isDigit_of_mem h] at hc
  cases hc

theorem natural?_toDigits (n : Nat) : natural? (Nat.toDigits 10 n) = some n := by
  have hne : Nat.toDigits 10 n ≠ [] := Nat.toDigits_ne_nil
  have hall : (Nat.toDigits 10 n).all Char.isDigit = true := by
    rw [List.all_eq_true]
    intro c hc
    exact isDigit_of_mem hc
  rw [natural?, if_pos ⟨hne, hall⟩, Nat.ofDigitChars_ten_toDigits]

theorem integer?_toDigits (n : Nat) : integer? (Nat.toDigits 10 n) = some (n : Int) := by
  have hread := natural?_toDigits n
  cases hs : Nat.toDigits 10 n with
  | nil => exact absurd hs Nat.toDigits_ne_nil
  | cons c s =>
    have hdigit : c.isDigit = true := isDigit_of_mem (n := n) (by rw [hs]; exact List.mem_cons_self)
    have hsign : c ≠ '-' := by
      rintro rfl
      cases hdigit
    rw [hs] at hread
    unfold integer?
    split
    · rename_i heq
      exact absurd (List.cons.inj heq).1 hsign
    · rw [hread]
      rfl

theorem integer?_repr (n : Int) : integer? n.repr.toList = some n := by
  cases n with
  | ofNat n =>
    show integer? (String.ofList (Nat.toDigits 10 n)).toList = _
    rw [String.toList_ofList, integer?_toDigits]
    rfl
  | negSucc n =>
    have htext : (Int.negSucc n).repr.toList = '-' :: Nat.toDigits 10 (n + 1) := by
      show ("-" ++ String.ofList (Nat.toDigits 10 (n + 1))).toList = _
      simp
    rw [htext, integer?, natural?_toDigits]
    rfl

end Decimal

namespace Hex

def char (d : Fin 16) : Char := Nat.digitChar d

def digit? (c : Char) : Option (Fin 16) := (List.finRange 16).find? fun d => char d == c

/-- The number that digits stand for, most significant first. -/
def number (ds : List (Fin 16)) : Nat := ds.foldl (fun n d => 16 * n + d.val) 0

def natural? (s : List Char) : Option Nat := (s.mapM digit?).map number

theorem digit?_char : ∀ d, digit? (char d) = some d := by decide

theorem char_ne_p : ∀ d, char d ≠ 'p' := by decide

theorem char_eq_zero_iff : ∀ d, char d = '0' ↔ d = 0 := by decide

theorem not_mem_map_char {c : Char} (hc : ∀ d, char d ≠ c) (ds : List (Fin 16)) :
    c ∉ ds.map char := by
  rw [List.mem_map]
  rintro ⟨d, _, hd⟩
  exact hc d hd

theorem mapM_digit?_map_char (ds : List (Fin 16)) : (ds.map char).mapM digit? = some ds := by
  induction ds with
  | nil => rfl
  | cons d ds ih => simp [digit?_char, ih]

theorem number_concat (ds : List (Fin 16)) (d : Fin 16) :
    number (ds ++ [d]) = 16 * number ds + d.val := by
  simp [number]

theorem number_append_zeros (ds : List (Fin 16)) (j : Nat) :
    number (ds ++ List.replicate j 0) = number ds * 16 ^ j := by
  induction j with
  | zero => simp
  | succ j ih =>
    have hzero : (0 : Fin 16).val = 0 := rfl
    rw [List.replicate_succ', ← List.append_assoc, number_concat, ih, Nat.pow_succ, hzero]
    rw [Nat.add_zero, Nat.mul_comm 16, Nat.mul_assoc]

theorem exists_digits (n : Nat) : ∃ ds, digits n = ds.map char ∧ number ds = n := by
  induction n using Nat.strongRecOn with
  | _ n ih =>
    by_cases hn : n < 16
    · refine ⟨[⟨n, hn⟩], ?_, by simp [number]⟩
      rw [digits, Nat.toDigits_of_lt_base hn]
      rfl
    · obtain ⟨ds, htext, hnumber⟩ := ih (n / 16) (by omega)
      refine ⟨ds ++ [⟨n % 16, Nat.mod_lt n (by decide)⟩], ?_, ?_⟩
      · rw [digits, Nat.toDigits_eq_if (by decide), if_neg hn, List.map_append, ← htext]
        rfl
      · rw [number_concat, hnumber]
        exact Nat.div_add_mod n 16

theorem not_mem_digits {c : Char} (hc : ∀ d, char d ≠ c) (n : Nat) : c ∉ digits n := by
  obtain ⟨ds, htext, _⟩ := exists_digits n
  rw [htext]
  exact not_mem_map_char hc ds

theorem natural?_digits (n : Nat) : natural? (digits n) = some n := by
  obtain ⟨ds, htext, hnumber⟩ := exists_digits n
  rw [natural?, htext, mapM_digit?_map_char, Option.map_some, hnumber]

theorem exists_fixed (k n : Nat) :
    ∃ ds, fixed k n = ds.map char ∧ number ds = n % 16 ^ k := by
  induction k generalizing n with
  | zero => exact ⟨[], rfl, by simp [number, Nat.mod_one]⟩
  | succ k ih =>
    obtain ⟨ds, htext, hnumber⟩ := ih (n / 16)
    refine ⟨ds ++ [⟨n % 16, Nat.mod_lt n (by decide)⟩], ?_, ?_⟩
    · rw [fixed, htext, List.map_append]
      rfl
    · rw [number_concat, hnumber, Nat.pow_succ, Nat.mul_comm (16 ^ k), Nat.mod_mul, Nat.add_comm]

theorem dropTrailingZeros_concat (s : List Char) (c : Char) :
    dropTrailingZeros (s ++ [c]) = if c = '0' then dropTrailingZeros s else s ++ [c] := by
  unfold dropTrailingZeros
  by_cases hc : c = '0'
  · simp [hc]
  · simp [hc]

/-- The zeros at the end of digits, and what is in front of them. -/
theorem exists_dropTrailingZeros (ds : List (Fin 16)) :
    ∃ short j, dropTrailingZeros (ds.map char) = short.map char ∧
      ds = short ++ List.replicate j 0 ∧ short.getLast? ≠ some 0 := by
  induction ds using List.reverseRecOn with
  | nil => exact ⟨[], 0, rfl, rfl, by simp⟩
  | append_singleton ds d ih =>
    rw [List.map_append, List.map_singleton, dropTrailingZeros_concat]
    by_cases hd : d = 0
    · obtain ⟨short, j, htext, hds, hlast⟩ := ih
      refine ⟨short, j + 1, ?_, ?_, hlast⟩
      · rw [if_pos ((char_eq_zero_iff d).mpr hd), htext]
      · rw [hds, hd, List.append_assoc, List.replicate_succ']
    · refine ⟨ds ++ [d], 0, ?_, by simp, by simpa using hd⟩
      rw [if_neg (fun h => hd ((char_eq_zero_iff d).mp h)), List.map_append, List.map_singleton]

end Hex

end Text
end WasmHost
