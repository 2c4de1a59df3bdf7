/-!
# WasmHost.ValType

The four types of a WebAssembly value, split into the integer and the float types, and the two
readings of a word as an integer.
-/

namespace WasmHost

-- Powers of natural numbers mean the same whether a module imports a theory of monoids or not.
attribute [instance (2000), default_instance (20000)] instPowNat

inductive ValType where
  | i32
  | i64
  | f32
  | f64
  deriving DecidableEq

inductive IntType where
  | i32
  | i64
  deriving DecidableEq

inductive FloatType where
  | f32
  | f64
  deriving DecidableEq

/-- How the bits of a word are read as an integer. -/
inductive Signedness where
  | signed
  | unsigned
  deriving DecidableEq

namespace ValType

def all : List ValType := [.i32, .i64, .f32, .f64]

def name : ValType → String
  | .i32 => "i32"
  | .i64 => "i64"
  | .f32 => "f32"
  | .f64 => "f64"

def ofName? (s : String) : Option ValType := all.find? (fun t => t.name == s)

theorem ofName?_name (t : ValType) : ofName? t.name = some t := by cases t <;> rfl

end ValType

namespace IntType

def all : List IntType := [.i32, .i64]

def toValType : IntType → ValType
  | .i32 => .i32
  | .i64 => .i64

def name (t : IntType) : String := t.toValType.name

@[reducible] def width : IntType → Nat
  | .i32 => 32
  | .i64 => 64

theorem width_pos (t : IntType) : 0 < t.width := by cases t <;> decide

theorem width_le (t : IntType) : t.width ≤ 64 := by cases t <;> decide

end IntType

namespace FloatType

def all : List FloatType := [.f32, .f64]

def toValType : FloatType → ValType
  | .f32 => .f32
  | .f64 => .f64

def name (t : FloatType) : String := t.toValType.name

@[reducible] def exponentBits : FloatType → Nat
  | .f32 => 8
  | .f64 => 11

/-- Number of stored significand bits of the format. -/
@[reducible] def fractionBits : FloatType → Nat
  | .f32 => 23
  | .f64 => 52

/-- The integer type whose words hold a float's bits. -/
def bitsType : FloatType → IntType
  | .f32 => .i32
  | .f64 => .i64

theorem one_lt_exponentBits (f : FloatType) : 1 < f.exponentBits := by cases f <;> decide

theorem fractionBits_pos (f : FloatType) : 0 < f.fractionBits := by cases f <;> decide

end FloatType

namespace Signedness

def all : List Signedness := [.signed, .unsigned]

/-- The one letter by which instruction names tell the reading. -/
def letter : Signedness → String
  | .signed => "s"
  | .unsigned => "u"

/-- The integer that a word stands for. -/
def read {w : Nat} : Signedness → BitVec w → Int
  | .signed, x => x.toInt
  | .unsigned, x => (x.toNat : Int)

/-- The least integer that a word of `w` bits stands for. -/
def lowest (w : Nat) : Signedness → Int
  | .signed => -(2 ^ (w - 1) : Nat)
  | .unsigned => 0

/-- The greatest integer that a word of `w` bits stands for. -/
def highest (w : Nat) : Signedness → Int
  | .signed => (2 ^ (w - 1) : Nat) - 1
  | .unsigned => (2 ^ w : Nat) - 1

end Signedness

end WasmHost
