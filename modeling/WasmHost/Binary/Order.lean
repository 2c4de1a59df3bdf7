import WasmHost.Binary.Basic

/-!
# WasmHost.Binary.Order

Comparison, minimum and maximum. A comparison tells the values apart and nothing else: the zeros are
equal, and none holds of a NaN. Minimum and maximum follow the order of the values with negative
zero below positive zero; a NaN operand, the left one first, is answered quieted.
-/

namespace WasmHost
namespace Binary

variable {e m : Nat}

/-- Grows with the value, and is the same for both zeros. -/
def key (x : Binary e m) : Int :=
  if x.sign then -(x.magnitude.toNat : Int) else (x.magnitude.toNat : Int)

def lt (x y : Binary e m) : Bool := !x.isNaN && !y.isNaN && decide (x.key < y.key)

def le (x y : Binary e m) : Bool := !x.isNaN && !y.isNaN && decide (x.key ≤ y.key)

/-- Grows with the value, and puts negative zero next below positive zero. -/
def rank (x : Binary e m) : Int :=
  if x.sign then -(x.magnitude.toNat : Int) - 1 else (x.magnitude.toNat : Int)

def min (x y : Binary e m) : Binary e m :=
  if x.isNaN then x.quiet
  else if y.isNaN then y.quiet
  else if x.rank ≤ y.rank then x else y

def max (x y : Binary e m) : Binary e m :=
  if x.isNaN then x.quiet
  else if y.isNaN then y.quiet
  else if x.rank ≤ y.rank then y else x

theorem rank_inj {x y : Binary e m} : x.rank = y.rank ↔ x = y := by
  constructor
  · intro h
    cases x with
    | mk s v =>
      cases y with
      | mk t u =>
        cases s <;> cases t <;> simp [rank] at h ⊢
        · exact BitVec.eq_of_toNat_eq (by omega)
        · omega
        · omega
        · exact BitVec.eq_of_toNat_eq (by omega)
  · rintro rfl
    rfl

end Binary
end WasmHost
