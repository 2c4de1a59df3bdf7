import WasmHost.Trap

/-!
# WasmHost.Word

Integer division, remainder and rotation on words of `w` bits. A quotient is cut toward zero and
a remainder has the sign of the dividend, under either reading of the words. Sizes are natural
numbers; where a sum of sizes has to be a word, it is added by `checkedAdd`.
-/

namespace WasmHost
namespace Word

/-- The signed quotient of the least word by minus one has no word. -/
def div {w : Nat} (s : Signedness) (a b : BitVec w) : Except Trap (BitVec w) :=
  if b = 0#w then
    .error .divideByZero
  else
    match s with
    | .signed =>
      if a = BitVec.intMin w ∧ b = -1#w then .error .intOverflow else .ok (a.sdiv b)
    | .unsigned => .ok (a.udiv b)

/-- The remainder of the least word by minus one is zero and traps nothing. -/
def rem {w : Nat} (s : Signedness) (a b : BitVec w) : Except Trap (BitVec w) :=
  if b = 0#w then
    .error .divideByZero
  else
    match s with
    | .signed => .ok (a.srem b)
    | .unsigned => .ok (a.umod b)

/-- Only the count modulo the width matters. -/
def rotateLeft {w : Nat} (x count : BitVec w) : BitVec w := x.rotateLeft count.toNat

def rotateRight {w : Nat} (x count : BitVec w) : BitVec w := x.rotateRight count.toNat

/-- The sum of two numbers, if it has no more than `w` bits. -/
def checkedAdd (w a b : Nat) : Option Nat := if a + b < 2 ^ w then some (a + b) else none

theorem checkedAdd_eq_some_iff {w a b n : Nat} :
    checkedAdd w a b = some n ↔ n = a + b ∧ a + b < 2 ^ w := by
  unfold checkedAdd
  split
  · rename_i h
    simp [h, eq_comm]
  · rename_i h
    simp [h]

end Word
end WasmHost
