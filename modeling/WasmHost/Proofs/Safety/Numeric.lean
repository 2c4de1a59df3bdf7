import WasmHost.Numeric.Eval
import WasmHost.Proofs.Numeric.Conversion
import WasmHost.Proofs.Safety.Step

/-!
# WasmHost.Proofs.Safety.Numeric

The numeric instructions, taken one step of the host after the other. Only a signed quotient, a
signed remainder and the float that is put together from a word have steps that may stop, and none
does.

* `strictDiv_eq`, `strictRem_eq`: the words for which no trap is raised have a quotient.
* `strictAssemble_eq`: the bit that rounds up is carried into the exponent at most, never out of the
  word.
* `strictEval_eq`: every instruction.
-/

namespace WasmHost
namespace Numeric

/-! ## The steps -/

def strictDiv {w : Nat} (a b : BitVec w) : Option (Except Trap (BitVec w)) :=
  if b = 0#w then
    return .error .divideByZero
  else if a = BitVec.intMin w ∧ b = -1#w then
    return .error .intOverflow
  else do
    return .ok (← Host.div a b)

def strictRem {w : Nat} (a b : BitVec w) : Option (Except Trap (BitVec w)) :=
  if b = 0#w then
    return .error .divideByZero
  else do
    return .ok (← Host.rem a b)

/-- An unsigned quotient by zero is an answer of its own, which becomes the trap. -/
def IntOp.strictEval {w : Nat} : IntOp → BitVec w → BitVec w → Option (Except Trap (BitVec w))
  | .div .signed, a, b => strictDiv a b
  | .rem .signed, a, b => strictRem a b
  | .div .unsigned, a, b => some (IntOp.eval (.div .unsigned) a b)
  | .rem .unsigned, a, b => some (IntOp.eval (.rem .unsigned) a b)
  | .rotl, a, b => some (IntOp.eval .rotl a b)
  | .rotr, a, b => some (IntOp.eval .rotr a b)

section

variable {e m : Nat}

/-- The bits kept of a word, and the one that rounds them, are added. -/
def strictAssemble (rest half : BitVec 64) (top : BitVec (e + m + 1)) (v : BitVec 64) :
    Option (Binary e m) := do
  let b := keptBits e m v
  let roundUp := if v &&& rest = half then (b >>> 1) &&& 1 else b &&& 1
  let bits ← Host.add (e + m + 1) (b >>> 1 ||| top).toNat roundUp.toNat
  return .ofBits (BitVec.ofNat (e + m + 1) bits)

end

def strictConvertLarge : (target : FloatType) → BitVec 64 →
    Option (Binary target.exponentBits target.fractionBits)
  | .f32, v => strictAssemble 0xFFFFFFFFFF#64 0x8000000000#64 0x5F000000#32 v
  | .f64, v => strictAssemble 0x7FF#64 0x400#64 0x43E0000000000000#64 v

def strictConvert (target : FloatType) : (source : IntType) → BitVec source.width →
    Option (Binary target.exponentBits target.fractionBits)
  | .i32, x => some (convert target .i32 x)
  | .i64, x =>
    if x >>> 63 = 0#64 then some (Binary.ofInt _ _ x.toInt) else strictConvertLarge target x

def Op.strictEval : Op → Args → Option (Except Trap Answer)
  | .int t op, args => do
    match ← op.strictEval (args.int t 0) (args.int t 1) with
    | .ok x => return .ok (.value (.ofInt t x))
    | .error trap => return .error trap
  | .convert target source, args => do
    let x ← strictConvert target source (args.int source 0)
    return .ok (.value (.ofFloat target x))
  | op, args => some (op.eval args)

/-! ## No step stops -/

section

variable {w : Nat} (a b : BitVec w)

theorem strictDiv_eq : strictDiv a b = some (Word.div .signed a b) := by
  unfold strictDiv Word.div
  split
  · rfl
  · rename_i hzero
    split
    · rfl
    · rename_i hfits
      rw [Host.div_of_ne hzero hfits]
      rfl

theorem strictRem_eq : strictRem a b = some (Word.rem .signed a b) := by
  unfold strictRem Word.rem
  split
  · rfl
  · rename_i hzero
    rw [Host.rem_of_ne hzero]
    rfl

theorem IntOp.strictEval_eq (op : IntOp) : op.strictEval a b = some (op.eval a b) := by
  cases op with
  | div s =>
    cases s with
    | signed => exact strictDiv_eq a b
    | unsigned => rfl
  | rem s =>
    cases s with
    | signed => exact strictRem_eq a b
    | unsigned => rfl
  | rotl => rfl
  | rotr => rfl

end

section

variable {e m : Nat}

/-- The first bit of the word counts as one of the exponent field, so the sum is below the field
that is greater by one. -/
theorem strictAssemble_eq (hm : m < 63) {k : Nat} (hk : k + 1 < 2 ^ (e + 1))
    {rest half : BitVec 64} {top : BitVec (e + m + 1)} (htop : top.toNat = k * 2 ^ m)
    {v : BitVec 64} (hv : 2 ^ 63 ≤ v.toNat) :
    strictAssemble rest half top v = some (assemble rest half top v) := by
  have hfields := toNat_fields hv hm htop
  have hbounds := quotient_bounds hv hm
  have hbit : ∀ b : BitVec (e + m + 1), (b &&& 1).toNat ≤ 1 := by
    intro b
    have hone : (1 : BitVec (e + m + 1)).toNat = 1 := BitVec.toNat_one (by omega)
    rw [BitVec.toNat_and, hone]
    exact Nat.and_le_right
  have hround : (if v &&& rest = half then (keptBits e m v >>> 1) &&& 1
      else keptBits e m v &&& 1).toNat ≤ 1 := by
    split
    · exact hbit _
    · exact hbit _
  have hword : (k + 2) * 2 ^ m ≤ 2 ^ (e + m + 1) := by
    have hpow : 2 ^ (e + m + 1) = 2 ^ (e + 1) * 2 ^ m := by
      rw [← Nat.pow_add]
      congr 1
      omega
    rw [hpow]
    exact Nat.mul_le_mul_right _ hk
  have hsum : (keptBits e m v >>> 1 ||| top).toNat +
      (if v &&& rest = half then (keptBits e m v >>> 1) &&& 1
        else keptBits e m v &&& 1).toNat < 2 ^ (e + m + 1) := by
    rw [Nat.add_mul] at hword
    have hpos := Nat.two_pow_pos m
    omega
  simp only [strictAssemble, Host.add_of_lt hsum, Option.bind_eq_bind, Option.bind_some,
    BitVec.ofNat_add, BitVec.ofNat_toNat, BitVec.setWidth_eq]
  rfl

theorem strictConvertLarge_eq (t : FloatType) {v : BitVec 64} (hv : 2 ^ 63 ≤ v.toNat) :
    strictConvertLarge t v = some (convertLarge t v) := by
  cases t with
  | f32 => exact strictAssemble_eq (k := 190) (by decide) (by decide) (by decide) hv
  | f64 => exact strictAssemble_eq (k := 1086) (by decide) (by decide) (by decide) hv

end

theorem strictConvert_eq (t : FloatType) (s : IntType) (x : BitVec s.width) :
    strictConvert t s x = some (convert t s x) := by
  cases s with
  | i32 => rfl
  | i64 =>
    have hfirst := ushiftRight_eq_zero_iff x
    simp only [strictConvert, convert, hfirst]
    split
    · rfl
    · rename_i hlarge
      exact strictConvertLarge_eq t (Nat.le_of_not_lt hlarge)

theorem Op.strictEval_eq (op : Op) (args : Args) : op.strictEval args = some (op.eval args) := by
  cases op with
  | int t op =>
    rw [Op.strictEval, IntOp.strictEval_eq, Op.eval]
    cases op.eval (args.int t 0) (args.int t 1) <;> rfl
  | convert target source =>
    rw [Op.strictEval, strictConvert_eq]
    rfl
  | floatBinary t op => rfl
  | floatUnary t op => rfl
  | truncate target source s => rfl
  | truncateSat target source s => rfl
  | test c t => rfl
  | isEqual t => rfl
  | makeNaN t => rfl

end Numeric
end WasmHost
