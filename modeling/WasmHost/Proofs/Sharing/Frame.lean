import WasmHost.Proofs.Sharing.Fill
import WasmHost.Proofs.Sharing.Work

/-!
# WasmHost.Proofs.Sharing.Frame

What an act leaves alone. An act that works on an object moves no handle, one that fills keys of a
registry fills no other registry's and no name, and a function is never changed.

* `view_operation`, `view_call`, `view_idle`: what each kind of work leaves of what items show.
* `fill_of_work`, `fill_key_of_writes_ne`, `fill_name_of_writes`: places that an act keeps.
-/

namespace WasmHost
namespace Script

/-- The registry whose keys an act may fill. -/
def Act.writes? : Act → Option String
  | .command (.registry r (.define ..)) => some r
  | .command (.registry r (.overlay ..)) => some r
  | .command (.registry r (.spectest _)) => some r
  | .command (.registry _ (.copyTo r)) => some r
  | _ => none

theorem Fill.only_of_ne {target p : Place} (h : p ≠ target) (f : Fill) :
    Fill.only target f p = .kept := if_neg h

namespace Session

variable {s : Session} {a : Act} {item : Extern}

/-! ## Objects -/

theorem view_operation {h : Place} {e : Effect} (hwork : s.work a = .operation h e)
    (hitem : s.store.Has item) :
    (s.act a).store.view item =
      if item = e.target then e.on (s.store.view item) else s.store.view item := by
  have hleaves := s.leaves_act a
  rw [hwork] at hleaves
  rw [hleaves.2]
  by_cases heq : item = e.target
  · subst heq
    rw [if_pos rfl]
    exact Effect.view_apply_target s.store hitem
  · rw [if_neg heq]
    exact Effect.view_apply_other s.store heq

theorem view_call {f : Addr .function} (hwork : s.work a = .call f) :
    ∃ es : List Effect, (∀ e ∈ es, s.store.OperatesOn f e.target) ∧
      ∀ item, s.store.Has item → (s.act a).store.view item =
        Effect.onAll es item (s.store.view item) := by
  have hleaves := s.leaves_act a
  rw [hwork] at hleaves
  obtain ⟨es, hes, hstore⟩ := hleaves
  refine ⟨es, hes, fun item hitem => ?_⟩
  rw [hstore]
  exact Effect.view_applyAll hitem es

theorem view_idle (hwork : s.work a = .none) (hitem : s.store.Has item) :
    (s.act a).store.view item = s.store.view item := by
  have hleaves := s.leaves_act a
  rw [hwork] at hleaves
  exact hleaves.view_eq item hitem

/-- A function stays what it is, whatever is done. -/
theorem view_function {f : Addr .function} (hf : s.store.Has (.function f)) :
    (s.act a).store.view (.function f) = s.store.view (.function f) := by
  cases hwork : s.work a with
  | none => exact view_idle hwork hf
  | operation h e => rw [view_operation hwork hf, if_neg (e.target_ne_function f).symm]
  | call g =>
    obtain ⟨es, _, hview⟩ := view_call hwork
    rw [hview _ hf]
    exact Effect.onAll_of_forall_ne (fun e _ => e.target_ne_function f) _

/-! ## Places -/

variable {p : Place}

/-- An act that works on an object moves no handle. -/
theorem fill_of_work {w : Work} (h : s.work a = w) (hw : w ≠ .none) (p : Place) :
    s.fill a p = .kept := by
  have hwork : s.work a ≠ .none := h ▸ hw
  cases a with
  | copy k source target => exact absurd rfl hwork
  | command c =>
    cases c with
    | memory name c =>
      cases c with
      | allocate initial max => exact absurd rfl hwork
      | _ => rfl
    | table name c =>
      cases c with
      | allocate length max => exact absurd rfl hwork
      | _ => rfl
    | function name c =>
      cases c with
      | make shown body => exact absurd rfl hwork
      | _ => rfl
    | global name c =>
      cases c with
      | make v => exact absurd rfl hwork
      | _ => rfl
    | signature name c => rfl
    | registry name c => exact absurd rfl hwork
    | tally name c => rfl
    | same k a b => rfl

theorem fillCopy_of_ne {source target : Place} (h : p ≠ target) :
    s.fillCopy source target p = .kept := by
  unfold fillCopy
  split
  · exact Fill.only_of_ne h _
  · rfl

theorem fillFound_key (source : Place) (name r : String) (key : ExportKey)
    (found : Except LinkError Extern) : fillFound source name found (.key r key) = .kept := by
  cases found with
  | error e => rfl
  | ok item =>
    cases item with
    | constant v => rfl
    | _ => exact Fill.only_of_ne (by simp) _

/-- An act fills keys of one registry at most. -/
theorem fill_key_of_writes_ne {r : String} (h : a.writes? ≠ some r) (key : ExportKey) :
    s.fill a (.key r key) = .kept := by
  cases a with
  | copy k source target => exact fillCopy_of_ne (by simp)
  | command c =>
    cases c with
    | memory name c =>
      cases c with
      | allocate initial max =>
        simp only [fill, fillMemory]
        cases Memory.allocate initial max with
        | error e => rfl
        | ok m => exact Fill.only_of_ne (by simp) _
      | _ => rfl
    | table name c =>
      cases c with
      | allocate length max =>
        simp only [fill, fillTable]
        cases Table.allocate length max with
        | error e => rfl
        | ok t => exact Fill.only_of_ne (by simp) _
      | _ => rfl
    | function name c =>
      cases c with
      | make shown body =>
        simp only [fill, fillFunction]
        cases s.names.lookupBody body with
        | error e => rfl
        | ok body => exact Fill.only_of_ne (by simp) _
      | _ => rfl
    | global name c =>
      cases c with
      | make v =>
        simp only [fill, fillGlobal]
        exact Fill.only_of_ne (by simp) _
      | _ => rfl
    | signature name c => rfl
    | registry name c =>
      cases c with
      | define module field item =>
        have hr : r ≠ name := fun heq => h (congrArg some heq.symm)
        cases item with
        | constant v => exact Fill.only_of_ne (by simp [hr]) _
        | named k n => exact fillCopy_of_ne (by simp [hr])
      | resolve module field kind? save? =>
        cases save? with
        | none => rfl
        | some saved => exact fillFound_key _ _ _ _ _
      | contains module field => rfl
      | overlay target source =>
        have hr : r ≠ name := fun heq => h (congrArg some heq.symm)
        exact if_neg fun hfill => hr hfill.1
      | spectest module =>
        have hr : r ≠ name := fun heq => h (congrArg some heq.symm)
        exact if_neg fun hfill => hr hfill.1
      | copyTo target =>
        have hr : r ≠ target := fun heq => h (congrArg some heq.symm)
        exact if_neg hr
    | tally name c => rfl
    | same k a b => rfl

/-- An act that fills keys fills no name. -/
theorem fill_name_of_writes {r : String} (h : a.writes? = some r) (k : ExternKind)
    (name : String) : s.fill a (.name k name) = .kept := by
  cases a with
  | copy k source target => cases h
  | command c =>
    cases c with
    | registry n c =>
      cases c with
      | define module field item =>
        cases item with
        | constant v =>
          simp only [fill, fillRegistry]
          exact Fill.only_of_ne (by simp) _
        | named k n => exact fillCopy_of_ne (by simp)
      | resolve module field kind? save? => cases h
      | contains module field => cases h
      | overlay target source => rfl
      | spectest module => rfl
      | copyTo target => rfl
    | _ => cases h

theorem work_of_writes {r : String} (h : a.writes? = some r) : s.work a = .none := by
  cases a with
  | copy k source target => cases h
  | command c =>
    cases c with
    | registry n c => rfl
    | _ => cases h

end Session
end Script
end WasmHost
