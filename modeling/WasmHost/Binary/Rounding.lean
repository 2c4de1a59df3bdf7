import WasmHost.Binary.Basic

/-!
# WasmHost.Binary.Rounding

Rounding of a quotient of natural numbers, and with it both the rounding of a float to a whole
number and the float nearest to a whole number. All of it is exact arithmetic on `Nat`.
-/

namespace WasmHost

inductive Rounding where
  | down
  | up
  | towardZero
  | nearestEven
  deriving DecidableEq

namespace Rounding

/-- Whether the quotient of `n` by `d` goes to the whole number farther from zero. `negative` tells
the sign of the number whose absolute value the quotient is. -/
def away (r : Rounding) (negative : Bool) (n d : Nat) : Bool :=
  match r with
  | .down => negative && n % d != 0
  | .up => !negative && n % d != 0
  | .towardZero => false
  | .nearestEven => decide (d < 2 * (n % d)) || (2 * (n % d) == d && n / d % 2 == 1)

/-- The quotient as a whole number. -/
def divide (r : Rounding) (negative : Bool) (n d : Nat) : Nat :=
  n / d + (r.away negative n d).toNat

end Rounding

namespace Binary

variable {e m : Nat}

/-- The whole number next to the absolute value of a finite float. -/
def integral (r : Rounding) (x : Binary e m) : Nat := r.divide x.sign x.units (one e m)

/-- The magnitude nearest to a whole number, ties to the even significand, capped at infinity. A
significand that rounds up to the next power of two carries into the exponent. -/
def nearest (e m n : Nat) : BitVec (e + m) :=
  if n = 0 then
    0#(e + m)
  else
    let significand := Rounding.nearestEven.divide false (n * 2 ^ m) (2 ^ n.log2)
    BitVec.ofNat (e + m)
      (Nat.min ((n.log2 + bias e - 1) * 2 ^ m + significand) (infinity e m).toNat)

/-- Rounds to a whole number. The sign stays, so a negative value that rounds to zero gives
negative zero; an infinity stays and a NaN is quieted. -/
def round (r : Rounding) (x : Binary e m) : Binary e m :=
  if x.isNaN then x.quiet
  else if x.isInfinite then x
  else ⟨x.sign, nearest e m (x.integral r)⟩

def floor (x : Binary e m) : Binary e m := x.round .down

def ceil (x : Binary e m) : Binary e m := x.round .up

def trunc (x : Binary e m) : Binary e m := x.round .towardZero

def roundTiesEven (x : Binary e m) : Binary e m := x.round .nearestEven

end Binary
end WasmHost
