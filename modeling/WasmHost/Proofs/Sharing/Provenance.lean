import WasmHost.Proofs.Sharing.Fill
import WasmHost.Proofs.Sharing.Work

/-!
# WasmHost.Proofs.Sharing.Provenance

Where handles come from. `origin?` goes back through a run, from each copy of a handle to the place
it was copied from, until it comes to the act that made the object.

* `Creation.Of.eq_of_item?_eq`: no two creations of a run made the same object.
* `explained`: a place holds the object of the creation that it traces back to, by induction on the
  run from its end. A place that traces back to none holds nothing or a constant.
-/

namespace WasmHost
namespace Script

/-- The act of a run that made an object, the kind of the object, and how many of this kind the act
had made before. -/
structure Creation where
  step : Nat
  kind : ExternKind
  index : Nat
  deriving DecidableEq

/-- The acts are those of the run from the last one back. -/
def originBack : List Act → Place → Option Creation
  | [], _ => none
  | a :: before, p =>
    match (Session.reached before.reverse).fill a p with
    | .kept => originBack before p
    | .copied q => originBack before q
    | .made k i => some ⟨before.length, k, i⟩
    | .constant _ => none

/-- The creation that the handle at a place traces back to, after a run. -/
def origin? (run : List Act) (p : Place) : Option Creation := originBack run.reverse p

namespace Session

theorem reached_concat (run : List Act) (a : Act) :
    reached (run ++ [a]) = (reached run).act a := by
  simp [reached]

theorem count_le_reached_append (run more : List Act) (k : ExternKind) :
    (reached run).store.count k ≤ (reached (run ++ more)).store.count k := by
  induction more using List.reverseRecOn with
  | nil => simp
  | append_singleton more a ih =>
    rw [← List.append_assoc, reached_concat]
    exact Nat.le_trans ih ((reached (run ++ more)).count_le_act a k)

theorem has_reached_append {run : List Act} {item : Extern} (h : (reached run).store.Has item)
    (more : List Act) : (reached (run ++ more)).store.Has item :=
  Store.has_of_count_le (count_le_reached_append run more) h

theorem count_le_reached_take (run : List Act) {i j : Nat} (h : i ≤ j) (k : ExternKind) :
    (reached (run.take i)).store.count k ≤ (reached (run.take j)).store.count k := by
  have hsplit : run.take j = run.take i ++ (run.take j).drop i := by
    have hi : run.take i = (run.take j).take i := by rw [List.take_take, Nat.min_eq_left h]
    rw [hi, List.take_append_drop]
  rw [hsplit]
  exact count_le_reached_append _ _ k

end Session

theorem origin?_concat (run : List Act) (a : Act) (p : Place) :
    origin? (run ++ [a]) p =
      match (Session.reached run).fill a p with
      | .kept => origin? run p
      | .copied q => origin? run q
      | .made k i => some ⟨run.length, k, i⟩
      | .constant _ => none := by
  simp only [origin?, List.reverse_append, List.reverse_singleton, List.singleton_append,
    originBack, List.reverse_reverse, List.length_reverse]

namespace Creation

open Session

/-- The item for the object that a creation of the run made. -/
def item? (run : List Act) (c : Creation) : Option Extern :=
  (reached (run.take c.step)).store.fresh? c.kind c.index

/-- The creation is one of the run: its act made an object that was not there before. -/
structure Of (run : List Act) (c : Creation) : Prop where
  step_lt : c.step < run.length
  made : (reached (run.take c.step)).store.count c.kind + c.index <
    (reached (run.take (c.step + 1))).store.count c.kind

section

variable {run : List Act} {c d : Creation}

theorem Of.append (h : c.Of run) (more : List Act) : c.Of (run ++ more) := by
  have hlt := h.step_lt
  refine ⟨by rw [List.length_append]; omega, ?_⟩
  rw [List.take_append_of_le_length (by omega), List.take_append_of_le_length (by omega)]
  exact h.made

theorem Of.item?_append (h : c.Of run) (more : List Act) : c.item? (run ++ more) = c.item? run := by
  unfold item?
  rw [List.take_append_of_le_length (Nat.le_of_lt h.step_lt)]

theorem Of.kind_ne_constant (h : c.Of run) : c.kind ≠ .constant := by
  intro hkind
  have hmade := h.made
  rw [hkind] at hmade
  exact absurd hmade (Nat.not_lt_zero _)

theorem Of.exists_item (h : c.Of run) : ∃ item, c.item? run = some item :=
  Extern.exists_shared? h.kind_ne_constant _

theorem kind_of_item? {item : Extern} (h : c.item? run = some item) : item.kind = c.kind :=
  Extern.kind_of_shared? h

/-- An object is there from its creation on. -/
theorem Of.has (h : c.Of run) {item : Extern} (hitem : c.item? run = some item) :
    (reached run).store.Has item := by
  rw [Store.has_of_shared?_eq hitem]
  have hlater := count_le_reached_take run (Nat.succ_le_of_lt h.step_lt) c.kind
  rw [List.take_length] at hlater
  exact Nat.lt_of_lt_of_le h.made hlater

/-- An object made at an earlier step was counted when the later one was made. -/
theorem Of.step_le_of_place_eq (hc : c.Of run) (hkind : d.kind = c.kind)
    (h : (reached (run.take c.step)).store.count c.kind + c.index =
      (reached (run.take d.step)).store.count d.kind + d.index) : d.step ≤ c.step := by
  by_contra hlt
  have hstep : c.step + 1 ≤ d.step := by omega
  have hlater := count_le_reached_take run hstep c.kind
  have hmade := hc.made
  rw [hkind] at h
  omega

/-- No two creations made the same object. -/
theorem Of.eq_of_item?_eq (hc : c.Of run) (hd : d.Of run) (h : c.item? run = d.item? run) :
    c = d := by
  obtain ⟨item, hitem⟩ := hc.exists_item
  obtain ⟨hkind, hplace⟩ := Extern.shared?_inj hitem (h ▸ hitem)
  have hcd := hc.step_le_of_place_eq hkind.symm hplace
  have hdc := hd.step_le_of_place_eq hkind hplace.symm
  obtain ⟨step, kind, index⟩ := c
  obtain ⟨step', kind', index'⟩ := d
  cases hkind
  cases Nat.le_antisymm hcd hdc
  simp_all

end

end Creation

/-! ## Every place of every run -/

open Session

/-- The place holds the object of the creation that it traces back to. If there is none it holds no
object. -/
def Explained (run : List Act) (p : Place) : Prop :=
  match origin? run p with
  | some c => c.Of run ∧ (reached run).itemAt p = c.item? run
  | none => ∀ item, (reached run).itemAt p = some item → item.kind = .constant

section

variable {run : List Act} {a : Act} {p q : Place}

theorem explained_of_copy (h : Explained run q) (horigin : origin? (run ++ [a]) p = origin? run q)
    (hitem : (reached (run ++ [a])).itemAt p = (reached run).itemAt q) :
    Explained (run ++ [a]) p := by
  unfold Explained at h ⊢
  rw [horigin, hitem]
  cases hq : origin? run q with
  | none =>
    rw [hq] at h
    exact h
  | some c =>
    rw [hq] at h
    exact ⟨h.1.append [a], h.2.trans (h.1.item?_append [a]).symm⟩

theorem explained_of_made {k : ExternKind} {i : Nat} (h : (reached run).fill a p = .made k i) :
    Explained (run ++ [a]) p := by
  have hdone := (reached run).done_fill p a
  have horigin := origin?_concat run a p
  rw [h] at hdone horigin
  have hbefore : (run ++ [a]).take run.length = run := List.take_left' rfl
  have hafter : (run ++ [a]).take (run.length + 1) = run ++ [a] :=
    List.take_of_length_le (by simp)
  unfold Explained
  rw [horigin]
  refine ⟨⟨by simp, ?_⟩, ?_⟩
  · rw [hbefore, hafter, reached_concat]
    exact hdone.2
  · rw [Creation.item?, hbefore, reached_concat]
    exact hdone.1

theorem explained (run : List Act) (p : Place) : Explained run p := by
  induction run using List.reverseRecOn generalizing p with
  | nil =>
    intro item hitem
    cases p with
    | name k name => cases k <;> cases hitem
    | key r key => cases hitem
  | append_singleton run a ih =>
    have hdone := (reached run).done_fill p a
    have horigin := origin?_concat run a p
    cases hfill : (reached run).fill a p with
    | made k i => exact explained_of_made hfill
    | kept =>
      rw [hfill] at hdone horigin
      exact explained_of_copy (ih p) horigin (by rw [reached_concat]; exact hdone)
    | copied q =>
      rw [hfill] at hdone horigin
      exact explained_of_copy (ih q) horigin (by rw [reached_concat]; exact hdone)
    | constant v =>
      rw [hfill] at hdone horigin
      unfold Explained
      rw [horigin, reached_concat, hdone]
      intro item hitem
      cases hitem
      rfl

end

/-- The handle at the end has come through an export, an overlay, a clone, an import and a copy. The
key that it was first exported under holds another object by then. -/
example :
    let run : List Act :=
      [.command (.memory "m" (.allocate 1 2)),
        .command (.registry "main" (.define "env" "memory" (.named .memory "m"))),
        .command (.registry "main" (.overlay "lib" "env")),
        .command (.registry "main" (.copyTo "clone")),
        .command (.registry "main" (.spectest "env")),
        .command (.registry "clone" (.resolve "lib" "memory" (some .memory) (some "n"))),
        .copy .memory "n" "o"]
    origin? run (.name .memory "o") = some ⟨0, .memory, 0⟩ ∧
      origin? run (.key "main" ⟨"env", "memory"⟩) = some ⟨4, .memory, 0⟩ := by
  exact ⟨rfl, rfl⟩

end Script
end WasmHost
