import Mathlib.Order.MinMax
import WasmHost.Proofs.Binary.NaN
import WasmHost.Proofs.Numeric.Extremes

/-!
# WasmHost.Proofs.Numeric.ExtremeAlgebra

The equations of minimum and maximum, for all floats. Among floats that are no NaN they are those of
the ranks, which are integers. A NaN operand takes the place of the answer, the first one if there
are several, and once it is quiet nothing that follows changes it. So an equation in which the
operands come in the same order on both sides holds of NaNs as well.

* `byRank_min`, `byRank_max`: what the two operations are.
* `ByRank.assoc`, `ByRank.distrib`, `ByRank.dual`: an equation of integers becomes one of floats.
* `ByRank.comm_iff`: exchanged operands. Of two NaNs each would be the first one once.
* `extremes_regroup`: all of it, for either format.
-/

namespace WasmHost
namespace Binary

variable {e m : Nat}

/-- An operation that is `f` on the ranks of floats that are no NaN, and answers the first NaN among
its operands quieted. -/
structure ByRank (f : Int → Int → Int) (op : Binary e m → Binary e m → Binary e m) : Prop where
  left : ∀ {x : Binary e m} (y), x.isNaN = true → op x y = x.quiet
  right : ∀ {x y : Binary e m}, x.isNaN = false → y.isNaN = true → op x y = y.quiet
  isNaN_eq : ∀ {x y : Binary e m}, x.isNaN = false → y.isNaN = false → (op x y).isNaN = false
  rank_eq : ∀ {x y : Binary e m}, x.isNaN = false → y.isNaN = false →
    (op x y).rank = f x.rank y.rank

theorem byRank_min : ByRank (e := e) (m := m) Min.min min where
  left y hx := by simp [min, hx]
  right hx hy := by simp [min, hx, hy]
  isNaN_eq hx hy := by
    rw [min_eq hx hy]
    split
    · exact hx
    · exact hy
  rank_eq hx hy := by
    rw [min_eq hx hy, min_def]
    exact apply_ite rank _ _ _

theorem byRank_max : ByRank (e := e) (m := m) Max.max max where
  left y hx := by simp [max, hx]
  right hx hy := by simp [max, hx, hy]
  isNaN_eq hx hy := by
    rw [max_eq hx hy]
    split
    · exact hy
    · exact hx
  rank_eq hx hy := by
    rw [max_eq hx hy, max_def]
    exact apply_ite rank _ _ _

/-! ## Signs -/

/-- Negative zero is next below positive zero, so the ranks are mirrored between the two. -/
theorem rank_neg (x : Binary e m) : x.neg.rank = -x.rank - 1 := by
  unfold rank neg
  cases x.sign <;> simp

theorem isNaN_neg (x : Binary e m) : x.neg.isNaN = x.isNaN := rfl

theorem quiet_neg (x : Binary e m) : x.neg.quiet = x.quiet.neg := rfl

theorem neg_neg (x : Binary e m) : x.neg.neg = x := by simp [neg]

/-! ## From integers to floats -/

namespace ByRank

variable {f g : Int → Int → Int} {op op' : Binary e m → Binary e m → Binary e m}

-- Each proof goes through the operands in the order in which they are looked at: the first NaN
-- settles the equation, and without one it is the equation of the ranks.

theorem assoc (h : ByRank f op) (hf : ∀ i j k, f (f i j) k = f i (f j k)) (x y z : Binary e m) :
    op (op x y) z = op x (op y z) := by
  cases hx : x.isNaN with
  | true => rw [h.left y hx, h.left z (isNaN_quiet hx), h.left _ hx, quiet_quiet]
  | false =>
    cases hy : y.isNaN with
    | true =>
      rw [h.right hx hy, h.left z (isNaN_quiet hy), h.left z hy, h.right hx (isNaN_quiet hy)]
    | false =>
      have hxy := h.isNaN_eq hx hy
      cases hz : z.isNaN with
      | true => rw [h.right hxy hz, h.right hy hz, h.right hx (isNaN_quiet hz), quiet_quiet]
      | false =>
        rw [← rank_inj, h.rank_eq hxy hz, h.rank_eq hx hy, h.rank_eq hx (h.isNaN_eq hy hz),
          h.rank_eq hy hz, hf]

theorem distrib (h : ByRank f op) (h' : ByRank g op')
    (hfg : ∀ i j k, f i (g j k) = g (f i j) (f i k)) (x y z : Binary e m) :
    op x (op' y z) = op' (op x y) (op x z) := by
  cases hx : x.isNaN with
  | true => rw [h.left _ hx, h.left y hx, h.left z hx, h'.left _ (isNaN_quiet hx), quiet_quiet]
  | false =>
    cases hy : y.isNaN with
    | true =>
      have hquiet := isNaN_quiet hy
      rw [h'.left z hy, h.right hx hquiet, h.right hx hy, h'.left _ hquiet]
    | false =>
      have hxy := h.isNaN_eq hx hy
      cases hz : z.isNaN with
      | true =>
        have hquiet := isNaN_quiet hz
        rw [h'.right hy hz, h.right hx hquiet, h.right hx hz, h'.right hxy hquiet]
      | false =>
        rw [← rank_inj, h.rank_eq hx (h'.isNaN_eq hy hz), h'.rank_eq hy hz,
          h'.rank_eq hxy (h.isNaN_eq hx hz), h.rank_eq hx hy, h.rank_eq hx hz, hfg]

theorem dual (h : ByRank f op) (h' : ByRank g op')
    (hfg : ∀ i j, g i j = -f (-i - 1) (-j - 1) - 1) (x y : Binary e m) :
    op' x y = (op x.neg y.neg).neg := by
  cases hx : x.isNaN with
  | true => rw [h'.left y hx, h.left _ ((isNaN_neg x).trans hx), quiet_neg, neg_neg]
  | false =>
    have hnx := (isNaN_neg x).trans hx
    cases hy : y.isNaN with
    | true => rw [h'.right hx hy, h.right hnx ((isNaN_neg y).trans hy), quiet_neg, neg_neg]
    | false =>
      rw [← rank_inj, rank_neg, h'.rank_eq hx hy, h.rank_eq hnx ((isNaN_neg y).trans hy), rank_neg,
        rank_neg, hfg]

theorem comm_iff (h : ByRank f op) (hf : ∀ i j, f i j = f j i) {x y : Binary e m} :
    op x y = op y x ↔ (x.isNaN = true → y.isNaN = true → x.quiet = y.quiet) := by
  cases hx : x.isNaN with
  | true =>
    cases hy : y.isNaN with
    | true => simp [h.left _ hx, h.left _ hy]
    | false => simp [h.left _ hx, h.right hy hx]
  | false =>
    cases hy : y.isNaN with
    | true => simp [h.left _ hy, h.right hx hy]
    | false => simp [← rank_inj, h.rank_eq hx hy, h.rank_eq hy hx, hf]

end ByRank
end Binary

namespace Numeric

open Binary

/-- The equations of the extremes of three floats. -/
structure ExtremeLaws (t : FloatType) (x y z : Binary t.exponentBits t.fractionBits) : Prop where
  min_assoc : FloatBinaryOp.min.eval (FloatBinaryOp.min.eval x y) z =
    FloatBinaryOp.min.eval x (FloatBinaryOp.min.eval y z)
  max_assoc : FloatBinaryOp.max.eval (FloatBinaryOp.max.eval x y) z =
    FloatBinaryOp.max.eval x (FloatBinaryOp.max.eval y z)
  min_max : FloatBinaryOp.min.eval x (FloatBinaryOp.max.eval y z) =
    FloatBinaryOp.max.eval (FloatBinaryOp.min.eval x y) (FloatBinaryOp.min.eval x z)
  max_min : FloatBinaryOp.max.eval x (FloatBinaryOp.min.eval y z) =
    FloatBinaryOp.min.eval (FloatBinaryOp.max.eval x y) (FloatBinaryOp.max.eval x z)
  max_eq_neg_min : FloatBinaryOp.max.eval x y =
    FloatUnaryOp.neg.eval
      (FloatBinaryOp.min.eval (FloatUnaryOp.neg.eval x) (FloatUnaryOp.neg.eval y))
  comm : ¬ (x.isNaN = true ∧ y.isNaN = true) →
    FloatBinaryOp.min.eval x y = FloatBinaryOp.min.eval y x ∧
      FloatBinaryOp.max.eval x y = FloatBinaryOp.max.eval y x
  comm_iff_of_nans : x.isNaN = true ∧ y.isNaN = true →
    (FloatBinaryOp.min.eval x y = FloatBinaryOp.min.eval y x ↔ x.quiet = y.quiet) ∧
      (FloatBinaryOp.max.eval x y = FloatBinaryOp.max.eval y x ↔ x.quiet = y.quiet)

/-- In either format and for all floats, NaNs with whatever payload and sign among them, as
equalities of all bits: chains of minima and of maxima may be regrouped, each of the two distributes
over the other, and the maximum is the negated minimum of the negated operands. The operands may be
exchanged unless both are NaNs; if both are, exactly if they are the same when quieted. -/
theorem extremes_regroup (t : FloatType) (x y z : Binary t.exponentBits t.fractionBits) :
    ExtremeLaws t x y z := by
  have hmin : x.min y = y.min x ↔ _ := byRank_min.comm_iff Int.min_comm
  have hmax : x.max y = y.max x ↔ _ := byRank_max.comm_iff Int.max_comm
  have hmirror : ∀ i j : Int, Max.max i j = -Min.min (-i - 1) (-j - 1) - 1 := by
    intro i j
    omega
  refine ⟨byRank_min.assoc Int.min_assoc x y z, byRank_max.assoc Int.max_assoc x y z,
    byRank_min.distrib byRank_max min_max_distrib_left x y z,
    byRank_max.distrib byRank_min max_min_distrib_left x y z,
    byRank_min.dual byRank_max hmirror x y,
    fun hnot => ?_, fun hboth => ?_⟩
  · have hvacuous : x.isNaN = true → y.isNaN = true → x.quiet = y.quiet :=
      fun hx hy => absurd ⟨hx, hy⟩ hnot
    exact ⟨hmin.mpr hvacuous, hmax.mpr hvacuous⟩
  · simp only [hboth.1, hboth.2, forall_const] at hmin hmax
    exact ⟨hmin, hmax⟩

/-- A signalling NaN and a quiet one, of different signs and payloads. -/
def signalling : F32 := .ofBits 0xFFA00001#32

def quietNaN : F32 := .ofBits 0x7FC00002#32

/-- A NaN may be exchanged with a number, but not with another NaN. -/
theorem exchanged_NaN :
    (¬ (signalling.isNaN = true ∧ (zero 8 23).isNaN = true) ∧
      FloatBinaryOp.min.eval signalling (zero 8 23) =
        FloatBinaryOp.min.eval (zero 8 23) signalling) ∧
    (signalling.isNaN = true ∧ quietNaN.isNaN = true) ∧
      FloatBinaryOp.max.eval signalling quietNaN ≠ FloatBinaryOp.max.eval quietNaN signalling := by
  have hone : ¬ (signalling.isNaN = true ∧ (zero 8 23).isNaN = true) := by decide
  have hboth : signalling.isNaN = true ∧ quietNaN.isNaN = true := by decide
  have hwithZero := extremes_regroup .f32 signalling (zero 8 23) (zero 8 23)
  have hwithNaN := extremes_regroup .f32 signalling quietNaN (zero 8 23)
  refine ⟨⟨hone, (hwithZero.comm hone).1⟩, hboth, fun heq => ?_⟩
  have hquiet : signalling.quiet ≠ quietNaN.quiet := by decide
  exact hquiet ((hwithNaN.comm_iff_of_nans hboth).2.mp heq)

end Numeric
end WasmHost
