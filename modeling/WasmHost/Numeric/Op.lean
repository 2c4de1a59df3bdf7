import WasmHost.Value

/-!
# WasmHost.Numeric.Op

The numeric instructions and their names.
-/

namespace WasmHost
namespace Numeric

inductive IntOp where
  | div (s : Signedness)
  | rem (s : Signedness)
  | rotl
  | rotr
  deriving DecidableEq

inductive FloatBinaryOp where
  | min
  | max
  | copysign
  deriving DecidableEq

inductive FloatUnaryOp where
  | floor
  | ceil
  | trunc
  | nearest
  | abs
  | neg
  deriving DecidableEq

inductive FloatTest where
  | canonicalNaN
  | arithmeticNaN
  deriving DecidableEq

inductive Op where
  | int (t : IntType) (op : IntOp)
  | floatBinary (t : FloatType) (op : FloatBinaryOp)
  | floatUnary (t : FloatType) (op : FloatUnaryOp)
  | truncate (target : IntType) (source : FloatType) (s : Signedness)
  | truncateSat (target : IntType) (source : FloatType) (s : Signedness)
  | convert (target : FloatType) (source : IntType)
  | test (c : FloatTest) (t : FloatType)
  | isEqual (t : FloatType)
  | makeNaN (t : FloatType)
  deriving DecidableEq

namespace IntOp

def all : List IntOp :=
  [.div .signed, .div .unsigned, .rem .signed, .rem .unsigned, .rotl, .rotr]

def name : IntOp → String
  | .div s => "div_" ++ s.letter
  | .rem s => "rem_" ++ s.letter
  | .rotl => "rotl"
  | .rotr => "rotr"

end IntOp

namespace FloatBinaryOp

def all : List FloatBinaryOp := [.min, .max, .copysign]

def name : FloatBinaryOp → String
  | .min => "min"
  | .max => "max"
  | .copysign => "copysign"

end FloatBinaryOp

namespace FloatUnaryOp

def all : List FloatUnaryOp := [.floor, .ceil, .trunc, .nearest, .abs, .neg]

def name : FloatUnaryOp → String
  | .floor => "floor"
  | .ceil => "ceil"
  | .trunc => "trunc"
  | .nearest => "nearest"
  | .abs => "abs"
  | .neg => "neg"

end FloatUnaryOp

namespace FloatTest

def all : List FloatTest := [.canonicalNaN, .arithmeticNaN]

/-- The word that names the class of NaNs. -/
def word : FloatTest → String
  | .canonicalNaN => "canonical"
  | .arithmeticNaN => "arithmetic"

end FloatTest

namespace Op

def all : List Op :=
  IntType.all.flatMap (fun t => IntOp.all.map (.int t))
    ++ FloatType.all.flatMap (fun t => FloatBinaryOp.all.map (.floatBinary t))
    ++ FloatType.all.flatMap (fun t => FloatUnaryOp.all.map (.floatUnary t))
    ++ IntType.all.flatMap (fun t => FloatType.all.flatMap (fun f =>
        Signedness.all.flatMap (fun s => [.truncate t f s, .truncateSat t f s])))
    ++ FloatType.all.flatMap (fun f => IntType.all.map (.convert f))
    ++ FloatTest.all.flatMap (fun c => FloatType.all.map (.test c))
    ++ FloatType.all.flatMap (fun t => [.isEqual t, .makeNaN t])

def name : Op → String
  | .int t op => t.name ++ "_" ++ op.name
  | .floatBinary t op => t.name ++ "_" ++ op.name
  | .floatUnary t op => t.name ++ "_" ++ op.name
  | .truncate target source s => target.name ++ "_trunc_" ++ source.name ++ "_" ++ s.letter
  | .truncateSat target source s =>
    target.name ++ "_trunc_sat_" ++ source.name ++ "_" ++ s.letter
  | .convert target source => target.name ++ "_convert_" ++ source.name ++ "_u"
  | .test c t => "is_" ++ c.word ++ "_nan_" ++ t.name
  | .isEqual t => "is_equal_" ++ t.name
  | .makeNaN t => "make_nan_" ++ t.name

def ofName? (s : String) : Option Op := all.find? (fun op => op.name == s)

/-- The types of the operands. The payload of a NaN comes as an integer. -/
def params : Op → List ValType
  | .int t _ => [t.toValType, t.toValType]
  | .floatBinary t _ => [t.toValType, t.toValType]
  | .floatUnary t _ => [t.toValType]
  | .truncate _ source _ => [source.toValType]
  | .truncateSat _ source _ => [source.toValType]
  | .convert _ source => [source.toValType]
  | .test _ t => [t.toValType]
  | .isEqual t => [t.toValType, t.toValType]
  | .makeNaN t => [t.bitsType.toValType]

end Op

end Numeric
end WasmHost
