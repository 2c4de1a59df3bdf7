import WasmHost.Trap
import WasmHost.Binary.Integer
import WasmHost.Binary.Order

/-!
# WasmHost.Numeric.Conversion

The conversions between floats and integer words. A truncation compares its operand with bounds that
are numbers of the source format, and only then casts. So a bound is the end of the target range
where the format has no number between the two, and the number next to that end where it has one.

An unsigned word is converted as a signed one of 64 bits where it is one. Where it is not, the float
is put together from the bits of the word.
-/

namespace WasmHost
namespace Numeric

/-- The numbers above `low`, or at it if it is included, and below `high`. -/
structure Interval where
  low : Int
  lowIncluded : Bool
  high : Int

namespace Interval

def contains (i : Interval) {e m : Nat} (x : Binary e m) : Bool :=
  let low := Binary.ofInt e m i.low
  (if i.lowIncluded then low.le x else low.lt x) && x.lt (Binary.ofInt e m i.high)

/-- The floats of a format whose values, cut toward zero, lie in the range of a word. -/
def fitting : IntType → FloatType → Signedness → Interval
  | .i32, .f32, .signed => ⟨-2147483648, true, 2147483648⟩
  | .i32, .f64, .signed => ⟨-2147483649, false, 2147483648⟩
  | .i64, _, .signed => ⟨-9223372036854775808, true, 9223372036854775808⟩
  | .i32, _, .unsigned => ⟨-1, false, 4294967296⟩
  | .i64, _, .unsigned => ⟨-1, false, 18446744073709551616⟩

end Interval

/-- The integers from which on a saturating truncation answers the least and the greatest word. -/
structure Clamp where
  low : Int
  high : Int

namespace Clamp

def fitting : IntType → FloatType → Signedness → Clamp
  | .i32, .f32, .signed => ⟨-2147483648, 2147483648⟩
  | .i32, .f64, .signed => ⟨-2147483648, 2147483647⟩
  | .i64, _, .signed => ⟨-9223372036854775808, 9223372036854775808⟩
  | .i32, .f32, .unsigned => ⟨-1, 4294967296⟩
  | .i32, .f64, .unsigned => ⟨-1, 4294967295⟩
  | .i64, _, .unsigned => ⟨-1, 18446744073709551616⟩

end Clamp

def truncate (target : IntType) (source : FloatType) (s : Signedness)
    (x : Binary source.exponentBits source.fractionBits) : Except Trap (BitVec target.width) :=
  if x.isNaN then
    .error .invalidConversion
  else if (Interval.fitting target source s).contains x then
    .ok (x.toWord target.width s)
  else
    .error .intOverflow

/-- A NaN gives zero. -/
def truncateSat (target : IntType) (source : FloatType) (s : Signedness)
    (x : Binary source.exponentBits source.fractionBits) : BitVec target.width :=
  let clamp := Clamp.fitting target source s
  if x.isNaN then
    0
  else if x.le (Binary.ofInt _ _ clamp.low) then
    BitVec.ofInt target.width (s.lowest target.width)
  else if (Binary.ofInt _ _ clamp.high).le x then
    BitVec.ofInt target.width (s.highest target.width)
  else
    x.toWord target.width s

/-- A word whose first bit is set, as a float. Behind the first bit come those of the significand,
then the round bit. From the round bit on the bits are those of `rest`; where they make `half`, the
word lies halfway between two floats, and the last bit of the significand decides. A carry out of
the significand goes into the exponent field, which is that of `top`. -/
def assemble {e m : Nat} (rest half : BitVec 64) (top : BitVec (e + m + 1)) (v : BitVec 64) :
    Binary e m :=
  let b := ((v <<< 1) >>> (63 - m)).setWidth (e + m + 1)
  let roundUp := if v &&& rest = half then (b >>> 1) &&& 1 else b &&& 1
  .ofBits ((b >>> 1 ||| top) + roundUp)

/-- A word of 64 bits that as a signed one would be negative. -/
def convertLarge : (target : FloatType) → BitVec 64 →
    Binary target.exponentBits target.fractionBits
  | .f32, v => assemble 0xFFFFFFFFFF#64 0x8000000000#64 0x5F000000#32 v
  | .f64, v => assemble 0x7FF#64 0x400#64 0x43E0000000000000#64 v

/-- A word, read unsigned, as a float. -/
def convert (target : FloatType) :
    (source : IntType) → BitVec source.width → Binary target.exponentBits target.fractionBits
  | .i32, x => Binary.ofInt _ _ x.toNat
  | .i64, x => if x >>> 63 = 0#64 then Binary.ofInt _ _ x.toInt else convertLarge target x

end Numeric
end WasmHost
