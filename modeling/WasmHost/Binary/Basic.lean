import WasmHost.ValType

/-!
# WasmHost.Binary.Basic

Binary floating point as bit patterns: a sign bit, `e` exponent bits and `m` stored significand
bits. Arithmetic that must keep every bit of a NaN is done on the fields, never on numbers.

Exponent and fraction stand side by side in one word, the magnitude. Magnitudes are ordered as
the absolute values they stand for: finite ones first, then infinity, then every NaN.
-/

namespace WasmHost

structure Binary (e m : Nat) where
  sign : Bool
  magnitude : BitVec (e + m)
  deriving DecidableEq

abbrev F32 := Binary 8 23

abbrev F64 := Binary 11 52

namespace Binary

variable {e m : Nat}

def ofBits (bits : BitVec (e + m + 1)) : Binary e m := ⟨bits.msb, bits.setWidth (e + m)⟩

def toBits (x : Binary e m) : BitVec (e + m + 1) := BitVec.cons x.sign x.magnitude

/-- All exponent bits set and no other: the magnitude of an infinity. -/
def infinity (e m : Nat) : BitVec (e + m) := BitVec.allOnes e ++ 0#m

/-- The first significand bit, which tells a quiet NaN from a signalling one. -/
def quietBit (e m : Nat) : BitVec (e + m) := BitVec.twoPow (e + m) (m - 1)

/-- The magnitude of the canonical NaN. -/
def canonicalNaN (e m : Nat) : BitVec (e + m) := infinity e m ||| quietBit e m

def zero (e m : Nat) : Binary e m := ⟨false, 0#(e + m)⟩

def isNaN (x : Binary e m) : Bool := decide (infinity e m < x.magnitude)

def isInfinite (x : Binary e m) : Bool := x.magnitude == infinity e m

def isFinite (x : Binary e m) : Bool := decide (x.magnitude < infinity e m)

def isCanonicalNaN (x : Binary e m) : Bool := x.magnitude == canonicalNaN e m

/-- All exponent bits and the quiet bit are set. -/
def isArithmeticNaN (x : Binary e m) : Bool :=
  x.magnitude &&& canonicalNaN e m == canonicalNaN e m

def quiet (x : Binary e m) : Binary e m := { x with magnitude := x.magnitude ||| quietBit e m }

/-- The bits of a payload with all exponent bits set. -/
def makeNaN (payload : BitVec (e + m + 1)) : Binary e m :=
  ⟨(ofBits payload).sign, (ofBits payload).magnitude ||| infinity e m⟩

def abs (x : Binary e m) : Binary e m := { x with sign := false }

def neg (x : Binary e m) : Binary e m := { x with sign := !x.sign }

/-- The magnitude of `x` under the sign of `y`. -/
def copysign (x y : Binary e m) : Binary e m := { x with sign := y.sign }

def exponent (x : Binary e m) : Nat := x.magnitude.toNat / 2 ^ m

def fraction (x : Binary e m) : Nat := x.magnitude.toNat % 2 ^ m

/-- What the exponent field of the number one holds. -/
def bias (e : Nat) : Nat := 2 ^ (e - 1) - 1

/-- The number one, counted in least positive values. -/
def one (e m : Nat) : Nat := 2 ^ (bias e - 1 + m)

/-- The absolute value of a finite float, counted in least positive values. Every finite float is
a whole number of them, so values compare and round exactly as natural numbers. -/
def units (x : Binary e m) : Nat :=
  if x.exponent = 0 then x.fraction else (2 ^ m + x.fraction) * 2 ^ (x.exponent - 1)

theorem ofBits_toBits (x : Binary e m) : ofBits x.toBits = x := by
  cases x with
  | mk s v => simp [ofBits, toBits, BitVec.msb_cons]

theorem toBits_ofBits (b : BitVec (e + m + 1)) : (ofBits b : Binary e m).toBits = b := by
  simp [ofBits, toBits, BitVec.cons_msb_setWidth]

theorem toBits_inj {x y : Binary e m} : x.toBits = y.toBits ↔ x = y := by
  constructor
  · intro h
    rw [← ofBits_toBits x, h, ofBits_toBits]
  · rintro rfl
    rfl

end Binary
end WasmHost
