/-!
# WasmHost.Text.Hex

Hexadecimal digits in lower case: of a natural number without leading zeros, and of a number
written on a fixed count of digits.
-/

namespace WasmHost
namespace Text
namespace Hex

/-- The digits of `n`, most significant first, none in front of the first nonzero one. -/
def digits (n : Nat) : List Char := Nat.toDigits 16 n

/-- The last `k` digits of `n`, most significant first. -/
def fixed : Nat → Nat → List Char
  | 0, _ => []
  | k + 1, n => fixed k (n / 16) ++ [Nat.digitChar (n % 16)]

/-- The text with the zeros at its end taken off. -/
def dropTrailingZeros (s : List Char) : List Char := (s.reverse.dropWhile (· == '0')).reverse

/-- An address as it is written in messages. -/
def address (n : Nat) : String := "0x" ++ String.ofList (digits n)

theorem length_fixed (k n : Nat) : (fixed k n).length = k := by
  induction k generalizing n with
  | zero => rfl
  | succ k ih => simp [fixed, ih]

end Hex
end Text
end WasmHost
