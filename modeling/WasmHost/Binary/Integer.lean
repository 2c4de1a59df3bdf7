import WasmHost.ValType
import WasmHost.Binary.Rounding

/-!
# WasmHost.Binary.Integer

Casts between floats and integers. A float is cut toward zero and brought into the words of the
target; an integer becomes the nearest float.
-/

namespace WasmHost
namespace Binary

variable {e m : Nat}

/-- The value of a finite float, cut toward zero. -/
def truncated (x : Binary e m) : Int :=
  if x.sign then -(x.integral .towardZero : Int) else (x.integral .towardZero : Int)

/-- A NaN gives zero, and a value outside the range its nearest bound. -/
def toWord (w : Nat) (s : Signedness) (x : Binary e m) : BitVec w :=
  if x.isNaN then
    0#w
  else if x.isInfinite then
    BitVec.ofInt w (if x.sign then s.lowest w else s.highest w)
  else
    BitVec.ofInt w (Max.max (s.lowest w) (Min.min (s.highest w) x.truncated))

/-- The float nearest to an integer, ties to even. -/
def ofInt (e m : Nat) (n : Int) : Binary e m := ⟨decide (n < 0), nearest e m n.natAbs⟩

end Binary
end WasmHost
