import WasmHost.Word
import WasmHost.Numeric.Conversion
import WasmHost.Numeric.Op

/-!
# WasmHost.Numeric.Eval

What each numeric instruction answers for its operands.
-/

namespace WasmHost
namespace Numeric

/-- Predicates answer a truth value, all other instructions a value of their type. -/
inductive Answer where
  | value (v : Value)
  | flag (b : Bool)
  deriving DecidableEq

def Answer.toValue : Answer → Value
  | .value v => v
  | .flag b => .ofBool b

def IntOp.eval {w : Nat} : IntOp → BitVec w → BitVec w → Except Trap (BitVec w)
  | .div s, a, b => Word.div s a b
  | .rem s, a, b => Word.rem s a b
  | .rotl, a, b => .ok (Word.rotateLeft a b)
  | .rotr, a, b => .ok (Word.rotateRight a b)

def FloatBinaryOp.eval {e m : Nat} : FloatBinaryOp → Binary e m → Binary e m → Binary e m
  | .min, x, y => x.min y
  | .max, x, y => x.max y
  | .copysign, x, y => x.copysign y

def FloatUnaryOp.eval {e m : Nat} : FloatUnaryOp → Binary e m → Binary e m
  | .floor, x => x.floor
  | .ceil, x => x.ceil
  | .trunc, x => x.trunc
  | .nearest, x => x.roundTiesEven
  | .abs, x => x.abs
  | .neg, x => x.neg

def FloatTest.holds {e m : Nat} : FloatTest → Binary e m → Bool
  | .canonicalNaN, x => x.isCanonicalNaN
  | .arithmeticNaN, x => x.isArithmeticNaN

/-- The float whose bits are those of an integer word with all exponent bits set. -/
def nanOfPayload (t : FloatType) (payload : BitVec t.bitsType.width) : Value :=
  match t with
  | .f32 => .f32 (Binary.makeNaN payload)
  | .f64 => .f64 (Binary.makeNaN payload)

def Op.eval : Op → Args → Except Trap Answer
  | .int t op, args =>
    match op.eval (args.int t 0) (args.int t 1) with
    | .ok x => .ok (.value (.ofInt t x))
    | .error trap => .error trap
  | .floatBinary t op, args =>
    .ok (.value (.ofFloat t (op.eval (args.float t 0) (args.float t 1))))
  | .floatUnary t op, args => .ok (.value (.ofFloat t (op.eval (args.float t 0))))
  | .truncate target source s, args =>
    match Numeric.truncate target source s (args.float source 0) with
    | .ok x => .ok (.value (.ofInt target x))
    | .error trap => .error trap
  | .truncateSat target source s, args =>
    .ok (.value (.ofInt target (Numeric.truncateSat target source s (args.float source 0))))
  | .convert target source, args =>
    .ok (.value (.ofFloat target (Numeric.convert target source (args.int source 0))))
  | .test c t, args => .ok (.flag (c.holds (args.float t 0)))
  | .isEqual t, args => .ok (.flag (args.float t 0 == args.float t 1))
  | .makeNaN t, args => .ok (.value (nanOfPayload t (args.int t.bitsType 0)))

end Numeric
end WasmHost
