import WasmHost.Binary.Literal

/-!
# WasmHost.Value

Values of the four types. Two values are the same when type and bits are, so a NaN is the same as
itself and the two zeros differ.

How a float is written is not decided here. The text of a value has a printer for floats as its
parameter, and `Value.text` is the text with the one of the host that runs.
-/

namespace WasmHost

inductive Value where
  | i32 (x : BitVec 32)
  | i64 (x : BitVec 64)
  | f32 (x : F32)
  | f64 (x : F64)
  deriving DecidableEq

/-- What floats are written by: a text for each of either format. -/
structure FloatPrinter where
  f32 : F32 → List Char
  f64 : F64 → List Char

/-- Floats as hexadecimal literals. -/
def FloatPrinter.hexadecimal : FloatPrinter := ⟨Binary.text, Binary.text⟩

namespace Value

def typ : Value → ValType
  | .i32 _ => .i32
  | .i64 _ => .i64
  | .f32 _ => .f32
  | .f64 _ => .f64

def zero : ValType → Value
  | .i32 => .i32 0#32
  | .i64 => .i64 0#64
  | .f32 => .f32 (Binary.zero 8 23)
  | .f64 => .f64 (Binary.zero 11 52)

def as? (t : ValType) (v : Value) : Option Value := if v.typ = t then some v else none

/-- The text behind the colon: an integer in decimal, a float as it is printed. -/
def payloadText (p : FloatPrinter) : Value → List Char
  | .i32 x => (Int.repr x.toInt).toList
  | .i64 x => (Int.repr x.toInt).toList
  | .f32 x => p.f32 x
  | .f64 x => p.f64 x

def textWith (p : FloatPrinter) (v : Value) : String :=
  v.typ.name ++ ":" ++ String.ofList (v.payloadText p)

/-- The text in the host that runs here. -/
def text (v : Value) : String := v.textWith .hexadecimal

def ofInt (t : IntType) (x : BitVec t.width) : Value :=
  match t with
  | .i32 => .i32 x
  | .i64 => .i64 x

def ofFloat (t : FloatType) (x : Binary t.exponentBits t.fractionBits) : Value :=
  match t with
  | .f32 => .f32 x
  | .f64 => .f64 x

def toInt? (t : IntType) (v : Value) : Option (BitVec t.width) :=
  match t, v with
  | .i32, .i32 x => some x
  | .i64, .i64 x => some x
  | _, _ => none

def toFloat? (t : FloatType) (v : Value) : Option (Binary t.exponentBits t.fractionBits) :=
  match t, v with
  | .f32, .f32 x => some x
  | .f64, .f64 x => some x
  | _, _ => none

/-- A truth value as the word one or zero. -/
def ofBool (b : Bool) : Value := .i32 (if b then 1#32 else 0#32)

theorem typ_zero (t : ValType) : (zero t).typ = t := by cases t <;> rfl

theorem typ_ofInt (t : IntType) (x : BitVec t.width) : (ofInt t x).typ = t.toValType := by
  cases t <;> rfl

theorem typ_ofFloat (t : FloatType) (x : Binary t.exponentBits t.fractionBits) :
    (ofFloat t x).typ = t.toValType := by
  cases t <;> rfl

end Value

/-- The arguments of a call, read by position. One that is missing or of another type reads as
zero of the type asked for. -/
abbrev Args := List Value

namespace Args

def int (args : Args) (t : IntType) (k : Nat) : BitVec t.width :=
  ((args[k]?).bind (Value.toInt? t)).getD 0

def float (args : Args) (t : FloatType) (k : Nat) : Binary t.exponentBits t.fractionBits :=
  ((args[k]?).bind (Value.toFloat? t)).getD (Binary.zero _ _)

def value (args : Args) (t : ValType) (k : Nat) : Value :=
  ((args[k]?).bind (Value.as? t)).getD (Value.zero t)

end Args

end WasmHost
