import WasmHost.Text.Hex
import WasmHost.Binary.Basic

/-!
# WasmHost.Binary.Literal

Floats as hexadecimal literals. A finite nonzero value is written with the leading digit 1, the
subnormal ones too, and without zeros at the end of its fraction, so every value has one text.

A host has its floats printed by a library. `Binary.text` is a printer of the format of that library,
and the one of the host that runs here. Texts of values and messages take the printer as a parameter.
-/

namespace WasmHost

/-- A float without its sign. -/
inductive Literal where
  | infinity
  | canonicalNaN
  | nan (significand : Nat)
  | zero
  | normal (fraction : List Char) (exponent : Int)
  deriving DecidableEq

namespace Literal

def exponentText (n : Int) : List Char :=
  (if n < 0 then '-' else '+') :: Nat.toDigits 10 n.natAbs

def text : Literal → List Char
  | .infinity => ['i', 'n', 'f']
  | .canonicalNaN => ['n', 'a', 'n']
  | .nan significand => ['n', 'a', 'n', ':', '0', 'x'] ++ Text.Hex.digits significand
  | .zero => ['0', 'x', '0', 'p', '+', '0']
  | .normal fraction exponent =>
    ['0', 'x', '1'] ++ (if fraction = [] then [] else '.' :: fraction)
      ++ ['p'] ++ exponentText exponent

end Literal

namespace Binary

variable {e m : Nat}

/-- Hexadecimal digits that hold a significand field, aligned to its first bit. -/
def fractionDigits (m : Nat) : Nat := (m + 3) / 4

/-- The fraction of a value whose leading bit has been taken off: `m` bits, in as many whole
digits as they need, the zeros at the end dropped. -/
def fractionText (m fraction : Nat) : List Char :=
  Text.Hex.dropTrailingZeros
    (Text.Hex.fixed (fractionDigits m) (fraction * 2 ^ (4 * fractionDigits m - m)))

def literal (x : Binary e m) : Literal :=
  if x.isNaN then
    if x.isCanonicalNaN then .canonicalNaN else .nan x.fraction
  else if x.isInfinite then
    .infinity
  else if x.units = 0 then
    .zero
  else
    .normal (fractionText m (x.units * 2 ^ m / 2 ^ x.units.log2 % 2 ^ m))
      ((x.units.log2 : Int) - (bias e - 1 + m : Nat))

/-- The sign is written whenever its bit is set, in front of a zero and a NaN too. -/
def text (x : Binary e m) : List Char := (if x.sign then ['-'] else []) ++ x.literal.text

end Binary
end WasmHost
