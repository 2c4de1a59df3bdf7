import Mathlib.Order.Defs.Unbundled
import Mathlib.Order.WithBot
import WasmHost.Numeric.Eval
import WasmHost.Proofs.Numeric.CorrectRounding

/-!
# WasmHost.Proofs.Numeric.Extremes

Minimum and maximum of floats that are no NaN. Comparisons follow the numbers that floats stand for
and cannot tell the zeros apart, which are the only two floats of one number. With negative zero put
before positive zero there is one order of all floats, and the extremes are those of this order,
whether they are taken by the magnitudes or by comparisons and one sign.

* `number_lt_number_iff`: the order of the numbers is that of the magnitudes under their signs.
* `eq_of_key_eq`, `zeros_of_key_eq`: two floats of one number.
* `atMost_iff`: the order of the floats, by their ranks.
* `isLinearOrder_atMost`: it is a linear order of the floats that are no NaN.
* `min_eq_of_comparisons`, `max_eq_of_comparisons`: the extremes, by comparisons.
* `extremes_follow_the_numbers`: minimum and maximum of either format.
-/

namespace WasmHost
namespace Binary

variable {e m : Nat}

/-- The number that a float stands for; an infinity is beyond all others. -/
def number (x : Binary e m) : WithBot (WithTop ℚ) :=
  if x.isFinite then ((x.value : WithTop ℚ) : WithBot (WithTop ℚ))
  else if x.sign then ⊥ else ⊤

/-- The order of the numbers, in which negative zero comes before positive zero. -/
def AtMost (x y : Binary e m) : Prop :=
  x.number < y.number ∨ x = y ∨ x = (zero e m).neg ∧ y = zero e m

section

variable {x y : Binary e m}

/-! ## The order of the numbers -/

theorem number_of_isFinite (h : x.isFinite = true) :
    x.number = ((x.value : WithTop ℚ) : WithBot (WithTop ℚ)) := if_pos h

theorem number_of_isInfinite (h : x.isInfinite = true) : x.number = if x.sign then ⊥ else ⊤ := by
  refine if_neg fun hfinite => ?_
  rw [isInfinite_of_isFinite hfinite] at h
  contradiction

theorem key_of_isInfinite (h : x.isInfinite = true) :
    x.key = if x.sign then -((infinity e m).toNat : Int) else (infinity e m).toNat := by
  rw [key, (isInfinite_iff x).mp h]

theorem key_of_isFinite (h : x.isFinite = true) :
    -((infinity e m).toNat : Int) < x.key ∧ x.key < (infinity e m).toNat := by
  rw [isFinite, decide_eq_true_eq, BitVec.lt_def] at h
  unfold key
  split <;> omega

theorem number_lt_number_iff (he : 0 < e) (hx : x.isNaN = false) (hy : y.isNaN = false) :
    x.number < y.number ↔ x.key < y.key := by
  have hzero := key_of_isFinite (isFinite_zero (m := m) he)
  have hpos : 0 < (infinity e m).toNat := by omega
  have htop : ∀ v : ℚ, ((v : WithTop ℚ) : WithBot (WithTop ℚ)) < ⊤ := fun v =>
    WithBot.coe_lt_coe.mpr (WithTop.coe_lt_top v)
  rcases isFinite_or_isInfinite hx with hx | hx <;>
    rcases isFinite_or_isInfinite hy with hy | hy
  · rw [number_of_isFinite hx, number_of_isFinite hy, WithBot.coe_lt_coe, WithTop.coe_lt_coe,
      value_lt_value_iff, key_lt_key_iff]
  · have hbounds := key_of_isFinite hx
    rw [number_of_isFinite hx, number_of_isInfinite hy, key_of_isInfinite hy]
    cases y.sign with
    | false => exact iff_of_true (htop _) hbounds.2
    | true => exact iff_of_false (WithBot.not_lt_bot _) (Int.not_lt.mpr (Int.le_of_lt hbounds.1))
  · have hbounds := key_of_isFinite hy
    rw [number_of_isFinite hy, number_of_isInfinite hx, key_of_isInfinite hx]
    cases x.sign with
    | false => exact iff_of_false not_top_lt (Int.not_lt.mpr (Int.le_of_lt hbounds.2))
    | true => exact iff_of_true (WithBot.bot_lt_coe _) hbounds.1
  · rw [number_of_isInfinite hx, number_of_isInfinite hy, key_of_isInfinite hx,
      key_of_isInfinite hy]
    cases x.sign <;> cases y.sign <;> simp [hpos]

/-! ## Two floats of one number -/

theorem key_nonpos (h : x.sign = true) : x.key ≤ 0 := by
  rw [key, if_pos h]
  omega

theorem key_nonneg (h : x.sign = false) : 0 ≤ x.key := by
  rw [key, if_neg (by simp [h])]
  omega

theorem eq_of_key_eq (hsign : x.sign = y.sign) (h : x.key = y.key) : x = y := by
  have hlt := key_lt_key_iff (x := x) (y := y)
  have hgt := key_lt_key_iff (x := y) (y := x)
  exact eq_of_value_eq hsign (value_eq_value_iff.mpr (by omega))

theorem zeros_of_key_eq (hx : x.sign = true) (hy : y.sign = false) (h : x.key = y.key) :
    x = (zero e m).neg ∧ y = zero e m := by
  have hneg := key_nonpos hx
  have hpos := key_nonneg hy
  have hzero : (zero e m).key = 0 := by simp [key, zero]
  have hminus : (zero e m).neg.key = 0 := by simp [key, neg, zero]
  exact ⟨eq_of_key_eq hx (by omega), eq_of_key_eq hy (by omega)⟩

/-! ## The order of the floats -/

theorem rank_le_rank_iff :
    x.rank ≤ y.rank ↔ x.key < y.key ∨
      x.key = y.key ∧ (x.sign = y.sign ∨ x.sign = true ∧ y.sign = false) := by
  unfold rank key
  cases x.sign <;> cases y.sign <;> simp <;> omega

theorem atMost_iff (he : 0 < e) (hx : x.isNaN = false) (hy : y.isNaN = false) :
    x.AtMost y ↔ x.rank ≤ y.rank := by
  rw [AtMost, number_lt_number_iff he hx hy, rank_le_rank_iff]
  constructor
  · rintro (hlt | rfl | ⟨rfl, rfl⟩)
    · exact .inl hlt
    · exact .inr ⟨rfl, .inl rfl⟩
    · exact .inr ⟨by simp [key, neg, zero], .inr ⟨rfl, rfl⟩⟩
  · rintro (hlt | ⟨heq, hsign | ⟨hneg, hpos⟩⟩)
    · exact .inl hlt
    · exact .inr (.inl (eq_of_key_eq hsign heq))
    · exact .inr (.inr (zeros_of_key_eq hneg hpos heq))

/-- Ranks that are equal are those of one float. -/
theorem ite_rank_comm {α : Type} {a b : α} (hab : x = y → a = b) :
    (if x.rank ≤ y.rank then a else b) = if y.rank ≤ x.rank then b else a := by
  by_cases hle : x.rank ≤ y.rank
  · by_cases hge : y.rank ≤ x.rank
    · rw [if_pos hle, if_pos hge, hab (rank_inj.mp (Int.le_antisymm hle hge))]
    · rw [if_pos hle, if_neg hge]
  · rw [if_neg hle, if_pos (Int.le_of_lt (Int.not_le.mp hle))]

/-! ## The extremes -/

section

variable (hx : x.isNaN = false) (hy : y.isNaN = false)
include hx hy

theorem min_eq : x.min y = if x.rank ≤ y.rank then x else y := by
  simp [min, hx, hy]

theorem max_eq : x.max y = if x.rank ≤ y.rank then y else x := by
  simp [max, hx, hy]

theorem extremes_of_atMost (he : 0 < e) (h : x.AtMost y) : x.min y = x ∧ x.max y = y := by
  rw [atMost_iff he hx hy] at h
  rw [min_eq hx hy, max_eq hx hy, if_pos h, if_pos h]
  exact ⟨rfl, rfl⟩

theorem min_comm : x.min y = y.min x := by
  rw [min_eq hx hy, min_eq hy hx]
  exact ite_rank_comm id

theorem max_comm : x.max y = y.max x := by
  rw [max_eq hx hy, max_eq hy hx]
  exact ite_rank_comm Eq.symm

theorem perm_extremes : [x.min y, x.max y].Perm [x, y] := by
  rw [min_eq hx hy, max_eq hx hy]
  split
  · exact List.Perm.refl _
  · exact List.Perm.swap x y []

/-- What the ranks decide is decided by comparisons too, and by the sign of one float where neither
is less. -/
theorem ite_rank_le_rank {α : Type} {a b : α} (hab : x = y → a = b) :
    (if x.rank ≤ y.rank then a else b) =
      if x.le y && y.le x then if x.sign then a else b else if x.lt y then a else b := by
  rcases Int.lt_trichotomy x.key y.key with hlt | heq | hgt
  · have hrank : x.rank ≤ y.rank := rank_le_rank_iff.mpr (.inl hlt)
    have hnot : ¬ y.key ≤ x.key := by omega
    simp [le, lt, hx, hy, hrank, hlt, hnot]
  · by_cases hsame : x = y
    · rw [hab hsame]
      simp
    · have hother : y.sign = !x.sign :=
        Bool.eq_not_of_ne fun hsign => hsame (eq_of_key_eq hsign.symm heq)
      have hrank : x.rank ≤ y.rank ↔ x.sign = true := by
        simp [rank_le_rank_iff, heq, hother]
      simp [le, hx, hy, heq, hrank]
  · have hrank : ¬ x.rank ≤ y.rank := by
      rw [rank_le_rank_iff]
      omega
    have hnot : ¬ x.key ≤ y.key := by omega
    have hlt : ¬ x.key < y.key := by omega
    simp [le, lt, hx, hy, hrank, hnot, hlt]

theorem min_eq_of_comparisons :
    x.min y =
      if x.le y && y.le x then if x.sign then x else y else if x.lt y then x else y := by
  rw [min_eq hx hy]
  exact ite_rank_le_rank hx hy id

theorem max_eq_of_comparisons :
    x.max y =
      if x.le y && y.le x then if x.sign then y else x else if x.lt y then y else x := by
  rw [max_eq hx hy]
  exact ite_rank_le_rank hx hy Eq.symm

end

end

theorem isLinearOrder_atMost (m : Nat) (he : 0 < e) :
    IsLinearOrder {x : Binary e m // x.isNaN = false} fun x y => x.1.AtMost y.1 where
  refl x := (atMost_iff he x.2 x.2).mpr (Int.le_refl _)
  trans x y z hxy hyz := by
    rw [atMost_iff he x.2 y.2] at hxy
    rw [atMost_iff he y.2 z.2] at hyz
    exact (atMost_iff he x.2 z.2).mpr (Int.le_trans hxy hyz)
  antisymm x y hxy hyx := by
    rw [atMost_iff he x.2 y.2] at hxy
    rw [atMost_iff he y.2 x.2] at hyx
    exact Subtype.ext (rank_inj.mp (Int.le_antisymm hxy hyx))
  total x y := by
    rw [atMost_iff he x.2 y.2, atMost_iff he y.2 x.2]
    exact Int.le_total _ _

end Binary

namespace Numeric

open Binary

/-- The extremes of two floats, by the order of the numbers. It is the same to compare the floats
and, where neither is less, to look at the sign of the first. -/
structure ExtremesInOrder (t : FloatType) (x y : Binary t.exponentBits t.fractionBits) : Prop where
  of_atMost : x.AtMost y → FloatBinaryOp.min.eval x y = x ∧ FloatBinaryOp.max.eval x y = y
  of_atMost_swap : y.AtMost x → FloatBinaryOp.min.eval x y = y ∧ FloatBinaryOp.max.eval x y = x
  perm : [FloatBinaryOp.min.eval x y, FloatBinaryOp.max.eval x y].Perm [x, y]
  min_comm : FloatBinaryOp.min.eval x y = FloatBinaryOp.min.eval y x
  max_comm : FloatBinaryOp.max.eval x y = FloatBinaryOp.max.eval y x
  min_self : FloatBinaryOp.min.eval x x = x
  max_self : FloatBinaryOp.max.eval x x = x
  min_eq : FloatBinaryOp.min.eval x y =
    if x.le y && y.le x then if x.sign then x else y else if x.lt y then x else y
  max_eq : FloatBinaryOp.max.eval x y =
    if x.le y && y.le x then if x.sign then y else x else if x.lt y then y else x

/-- In either format the floats that are no NaN are ordered by their numbers, with negative zero
before positive zero, and any two of them can be compared. Of two of them the minimum is, to the
bit, the one that comes first and the maximum the other; so the two are kept, their order does not
matter, and a float is its own minimum and maximum. -/
theorem extremes_follow_the_numbers (t : FloatType) :
    (IsLinearOrder {x : Binary t.exponentBits t.fractionBits // x.isNaN = false}
      fun x y => x.1.AtMost y.1) ∧
    ∀ x y : Binary t.exponentBits t.fractionBits, x.isNaN = false → y.isNaN = false →
      ExtremesInOrder t x y := by
  have he : 0 < t.exponentBits := Nat.lt_of_succ_lt t.one_lt_exponentBits
  refine ⟨isLinearOrder_atMost t.fractionBits he, fun x y hx hy => ?_⟩
  have hself := extremes_of_atMost hx hx he (.inr (.inl rfl))
  refine ⟨extremes_of_atMost hx hy he, fun hyx => ?_, perm_extremes hx hy, Binary.min_comm hx hy,
    Binary.max_comm hx hy, hself.1, hself.2, min_eq_of_comparisons hx hy,
    max_eq_of_comparisons hx hy⟩
  have hswapped := extremes_of_atMost hy hx he hyx
  exact ⟨(Binary.min_comm hx hy).trans hswapped.1, (Binary.max_comm hx hy).trans hswapped.2⟩

/-- The zeros, which no comparison tells apart. -/
theorem extremes_of_the_zeros :
    (zero 8 23).isNaN = false ∧ (zero 8 23).neg.isNaN = false ∧
      (zero 8 23).neg.AtMost (zero 8 23) ∧
      FloatBinaryOp.min.eval (zero 8 23) (zero 8 23).neg = (zero 8 23).neg ∧
      FloatBinaryOp.max.eval (zero 8 23) (zero 8 23).neg = zero 8 23 := by
  have hzero : (zero 8 23).isNaN = false := by decide
  have hneg : (zero 8 23).neg.isNaN = false := by decide
  have hfirst : (zero 8 23).neg.AtMost (zero 8 23) := .inr (.inr ⟨rfl, rfl⟩)
  obtain ⟨_, hextremes⟩ := extremes_follow_the_numbers .f32
  have hends := (hextremes (zero 8 23) (zero 8 23).neg hzero hneg).of_atMost_swap hfirst
  exact ⟨hzero, hneg, hfirst, hends⟩

end Numeric
end WasmHost
