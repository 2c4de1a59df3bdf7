import WasmHost.Proofs.Sharing.Objects
import WasmHost.Proofs.Sharing.Trace

/-!
# WasmHost.Proofs.Sharing.Global

A global over all its life. Its type is not written down anywhere: it is the type of what the global
holds, so it stays because nothing of another type is ever put in. `puts?` says of one operation
what it puts into a global, if it succeeds; `lastPut?` asks a whole run, the end of it first.

* `global_apply`, `typ_of_puts?`: one operation.
* `global_reached_append`, `typ_reached_append`: a run of acts, calls of functions among them.
* `holdsLastPut_of_creation`: what every handle then answers.
* `global_keeps_its_type`: all of it, from the creation of a global on.
-/

namespace WasmHost

namespace Effect

/-- What the operation puts into a global, if it is a set of this global and succeeds. -/
def puts? (a : Addr .global) (s : Store) : Effect → Option Value
  | .global b v =>
    match s.setGlobal b v with
    | .ok _ => if b = a then some v else none
    | .error _ => none
  | _ => none

/-- What the last of the sets puts there that succeed. -/
def lastPut? (a : Addr .global) (s : Store) : List Effect → Option Value
  | [] => none
  | e :: rest => (lastPut? a (e.apply s) rest).or (e.puts? a s)

section

variable {a : Addr .global} {s : Store}

theorem typ_of_puts? {e : Effect} {v : Value} (h : e.puts? a s = some v) :
    v.typ = (s.global a).typ := by
  cases e with
  | memory b op => cases h
  | table b op => cases h
  | global b w =>
    simp only [puts?] at h
    split at h
    · rename_i s' hset
      split at h
      · rename_i hb
        cases h
        subst hb
        exact Store.setGlobal_isOk_iff.mp ⟨s', hset⟩
      · cases h
    · cases h

/-- An operation that puts nothing into a global leaves it as it was. -/
theorem global_apply (ha : s.Has (.global a)) (e : Effect) :
    (e.apply s).global a = (e.puts? a s).getD (s.global a) := by
  cases e with
  | memory b op => rfl
  | table b op => rfl
  | global b v =>
    simp only [apply, puts?]
    cases hset : s.setGlobal b v with
    | error err => rfl
    | ok s' =>
      by_cases hb : b = a
      · subst hb
        rw [if_pos rfl]
        exact (Store.setGlobal_same ha hset).1
      · rw [if_neg hb]
        exact Store.setGlobal_other (Ne.symm hb) hset

theorem typ_apply (ha : s.Has (.global a)) (e : Effect) :
    ((e.apply s).global a).typ = (s.global a).typ := by
  rw [global_apply ha]
  cases hput : e.puts? a s with
  | none => rfl
  | some v => exact typ_of_puts? hput

theorem global_applyAll (ha : s.Has (.global a)) (es : List Effect) :
    (applyAll s es).global a = (lastPut? a s es).getD (s.global a) := by
  induction es generalizing s with
  | nil => rfl
  | cons e rest ih =>
    have hrest : (applyAll (e.apply s) rest).global a =
        (lastPut? a (e.apply s) rest).getD ((e.apply s).global a) := ih (has_applyAll ha [e])
    rw [global_apply ha, ← Option.getD_or] at hrest
    exact hrest

theorem typ_applyAll (ha : s.Has (.global a)) (es : List Effect) :
    ((applyAll s es).global a).typ = (s.global a).typ := by
  induction es generalizing s with
  | nil => rfl
  | cons e rest ih => exact (ih (has_applyAll ha [e])).trans (typ_apply ha e)

end

end Effect

namespace Script

open Session

/-- What the last set puts into a global that succeeds in a run of acts, whichever handle it goes
through. A call sets a global where the functions do that it runs. -/
def lastPut? (a : Addr .global) (s : Session) : List Act → Option Value
  | [] => none
  | act :: rest => (lastPut? a (s.act act) rest).or (Effect.lastPut? a s.store (s.effects act))

section

variable {run : List Act} {a : Addr .global}

/-! ## Runs -/

theorem global_act {s : Session} (ha : s.store.Has (.global a)) (act : Act) :
    (s.act act).store.global a = (Effect.applyAll s.store (s.effects act)).global a := by
  have hview : (s.act act).store.view (.global a) =
      (Effect.applyAll s.store (s.effects act)).view (.global a) := view_act ha
  exact View.global.inj hview

theorem global_reached_append (ha : (reached run).store.Has (.global a)) (later : List Act) :
    (reached (run ++ later)).store.global a =
      (lastPut? a (reached run) later).getD ((reached run).store.global a) := by
  induction later generalizing run with
  | nil => simp [lastPut?]
  | cons act rest ih =>
    have hrest := ih (has_reached_append ha [act])
    rw [List.append_assoc, reached_concat, global_act ha, Effect.global_applyAll ha,
      ← Option.getD_or] at hrest
    exact hrest

theorem typ_reached_append (ha : (reached run).store.Has (.global a)) (later : List Act) :
    ((reached (run ++ later)).store.global a).typ = ((reached run).store.global a).typ := by
  induction later using List.reverseRecOn with
  | nil => simp
  | append_singleton later act ih =>
    have hlater := has_reached_append ha later
    rw [← List.append_assoc, reached_concat, global_act hlater, Effect.typ_applyAll hlater, ih]

/-! ## Commands -/

section

variable {s : Session} {name : String}

theorem step_get (hname : s.names.find? .global name = some a) :
    s.step (.global name .get) = .pure s (.global (s.store.global a)) := by
  simp only [step, globalStep, lookup_of_find? hname, withFound]

/-- A set does what it says or nothing at all, and the type decides which. -/
theorem step_set (ha : s.store.Has (.global a)) (hname : s.names.find? .global name = some a)
    (v : Value) :
    (v.typ = (s.store.global a).typ →
      (s.step (.global name (.set v))).result = .ok .done ∧
        (s.step (.global name (.set v))).state.store.global a = v) ∧
    (v.typ ≠ (s.store.global a).typ →
      s.step (.global name (.set v)) =
        .fail s (.link (.globalTypeMismatch (s.store.global a).typ v.typ))) := by
  simp only [step, globalStep, lookup_of_find? hname, withFound]
  constructor
  · intro htyp
    obtain ⟨store, hset⟩ := Store.setGlobal_isOk_iff.mpr htyp
    simp only [hset]
    exact ⟨rfl, (Store.setGlobal_same ha hset).1⟩
  · intro htyp
    have hset : s.store.setGlobal a v =
        .error (.globalTypeMismatch (s.store.global a).typ v.typ) := if_neg htyp
    simp only [hset]

theorem step_expect (hname : s.names.find? .global name = some a) (t : ValType) :
    (t = (s.store.global a).typ →
      s.store.expectGlobal a t = .ok a ∧
        s.step (.global name (.expect t)) = .pure s (.value (s.store.global a))) ∧
    (t ≠ (s.store.global a).typ →
      s.store.expectGlobal a t = .error (.globalTypeMismatch (s.store.global a).typ t) ∧
        s.step (.global name (.expect t)) =
          .fail s (.link (.globalTypeMismatch (s.store.global a).typ t))) := by
  simp only [step, globalStep, lookup_of_find? hname, withFound]
  constructor
  · intro htyp
    have hexpect : s.store.expectGlobal a t = .ok a := if_pos htyp.symm
    simp only [hexpect, and_self]
  · intro htyp
    have hexpect : s.store.expectGlobal a t =
        .error (.globalTypeMismatch (s.store.global a).typ t) := if_neg (Ne.symm htyp)
    simp only [hexpect, and_self]

end

/-! ## Handles -/

/-- What has become of the global that a creation of a run made, at the end of a longer run. -/
structure HoldsLastPut (run later : List Act) (c : Creation) (a : Addr .global) : Prop where
  /-- Every handle that traces back to the creation is the global, and no other handle is. -/
  held : ∀ p, origin? (run ++ later) p = some c ↔
    (reached (run ++ later)).itemAt p = some (.global a)
  typ : ((reached (run ++ later)).store.global a).typ = ((reached run).store.global a).typ
  value : (reached (run ++ later)).store.global a =
    (lastPut? a (reached run) later).getD ((reached run).store.global a)
  get : ∀ name, origin? (run ++ later) (.name .global name) = some c →
    (reached (run ++ later)).step (.global name .get) =
      .pure (reached (run ++ later)) (.global ((reached (run ++ later)).store.global a))
  set : ∀ name v, origin? (run ++ later) (.name .global name) = some c →
    (v.typ = ((reached run).store.global a).typ →
      ((reached (run ++ later)).step (.global name (.set v))).result = .ok .done ∧
        ((reached (run ++ later)).step (.global name (.set v))).state.store.global a = v) ∧
    (v.typ ≠ ((reached run).store.global a).typ →
      (reached (run ++ later)).step (.global name (.set v)) = .fail (reached (run ++ later))
        (.link (.globalTypeMismatch ((reached run).store.global a).typ v.typ)))
  /-- A handle that is expected to have a type is the same handle again. -/
  expect : ∀ name t, origin? (run ++ later) (.name .global name) = some c →
    (t = ((reached run).store.global a).typ →
      (reached (run ++ later)).store.expectGlobal a t = .ok a ∧
        (reached (run ++ later)).step (.global name (.expect t)) =
          .pure (reached (run ++ later)) (.value ((reached (run ++ later)).store.global a))) ∧
    (t ≠ ((reached run).store.global a).typ →
      (reached (run ++ later)).store.expectGlobal a t =
          .error (.globalTypeMismatch ((reached run).store.global a).typ t) ∧
        (reached (run ++ later)).step (.global name (.expect t)) = .fail (reached (run ++ later))
          (.link (.globalTypeMismatch ((reached run).store.global a).typ t)))
  /-- An import finds the global, never a constant. -/
  imports : ∀ r key, origin? (run ++ later) (.key r key) = some c →
    (((reached (run ++ later)).registry r).resolve key (some .global)).1 = .ok (.global a) ∧
      (((reached (run ++ later)).registry r).resolve key (some .constant)).1 =
        .error (.kindMismatch key.module key.field .constant .global)

section

variable {c : Creation}

theorem find?_of_itemAt {s : Session} {name : String}
    (h : s.itemAt (.name .global name) = some (.global a)) :
    s.names.find? .global name = some a := by
  obtain ⟨x, hx, hshared⟩ := Option.bind_eq_some_iff.mp h
  cases hshared
  exact hx

theorem holdsLastPut_of_creation (hc : c.Of run) (hitem : c.item? run = some (.global a))
    (later : List Act) : HoldsLastPut run later c a := by
  have ha : (reached run).store.Has (.global a) := hc.has hitem
  have hlater := has_reached_append ha later
  have hitem' : c.item? (run ++ later) = some (.global a) := (hc.item?_append later).trans hitem
  have hheld : ∀ p, origin? (run ++ later) p = some c ↔
      (reached (run ++ later)).itemAt p = some (.global a) := by
    intro p
    exact origin?_eq_some_iff (hc.append later) hitem'
  have htyp := typ_reached_append ha later
  refine ⟨hheld, htyp, global_reached_append ha later, ?_, ?_, ?_, ?_⟩
  · intro name horigin
    exact step_get (find?_of_itemAt ((hheld _).mp horigin))
  · intro name v horigin
    rw [← htyp]
    exact step_set hlater (find?_of_itemAt ((hheld _).mp horigin)) v
  · intro name t horigin
    rw [← htyp]
    exact step_expect (find?_of_itemAt ((hheld _).mp horigin)) t
  · intro r key horigin
    have hfind : ((reached (run ++ later)).registry r).find? key = some (.global a) :=
      (hheld _).mp horigin
    rw [Registry.resolve_kind_of_some _ hfind, Registry.resolve_kind_of_some _ hfind]
    exact ⟨rfl, rfl⟩

end

/-- A global holds at first the value it is made with. -/
theorem creation_of_make (run : List Act) (name : String) (v : Value) :
    let made := run ++ [.command (.global name (.make v))]
    origin? made (.name .global name) = some ⟨run.length, .global, 0⟩ ∧
      ∃ a, Creation.item? made ⟨run.length, .global, 0⟩ = some (.global a) ∧
        (reached made).store.global a = v := by
  have hfill : (reached run).fill (.command (.global name (.make v))) (.name .global name) =
      .made .global 0 := if_pos rfl
  have horigin := origin?_concat run (.command (.global name (.make v))) (.name .global name)
  rw [hfill] at horigin
  refine ⟨horigin, ⟨(reached run).store.globals.size⟩, ?_, ?_⟩
  · rw [Creation.item?, List.take_left' rfl]
    rfl
  · rw [reached_concat]
    exact (reached run).store.global_addGlobal v

end

/-- A global made with a value keeps the type of the value through everything that is done, in any
order, through its names, exports, aliases and imports and by functions that hold it. It holds what
the last set put there that succeeded, or else what it was made with; a set succeeds exactly with a
value of its type, and changes nothing if it fails. -/
theorem global_keeps_its_type :
    (∀ run name v,
      let made := run ++ [.command (.global name (.make v))]
      origin? made (.name .global name) = some ⟨run.length, .global, 0⟩ ∧
        ∃ a, Creation.item? made ⟨run.length, .global, 0⟩ = some (.global a) ∧
          (reached made).store.global a = v) ∧
    ∀ run c, Creation.Of run c → c.kind = .global →
      ∃ a, c.item? run = some (.global a) ∧ ∀ later, HoldsLastPut run later c a := by
  refine ⟨creation_of_make, ?_⟩
  intro run c hc hkind
  obtain ⟨item, hitem⟩ := hc.exists_item
  have hitemKind : item.kind = .global := (Creation.kind_of_item? hitem).trans hkind
  cases item with
  | global a => exact ⟨a, hitem, holdsLastPut_of_creation hc hitem⟩
  | _ => cases hitemKind

/-- A global is made, exported and imported under another name. -/
def globalImported : List Act :=
  [.command (.global "made" (.make (.i32 5))),
    .command (.registry "main" (.define "env" "count" (.named .global "made"))),
    .command (.registry "main" (.resolve "env" "count" (some .global) (some "imported")))]

def setsOfTwoTypes : List Act :=
  [.command (.global "imported" (.set (.i32 7))), .command (.global "made" (.set (.i64 1)))]

/-- The set through the import counts. The one of another type that follows does not. -/
theorem set_through_import_counts :
    Creation.Of globalImported ⟨0, .global, 0⟩ ∧
      ((reached (globalImported ++ setsOfTwoTypes)).step (.global "made" .get)).result =
        .ok (.global (.i32 7)) := by
  have hc : Creation.Of globalImported ⟨0, .global, 0⟩ := ⟨by decide, by decide⟩
  obtain ⟨a, hitem, hholds⟩ := global_keeps_its_type.2 globalImported ⟨0, .global, 0⟩ hc rfl
  obtain rfl : ⟨0⟩ = a := Extern.global.inj (Option.some.inj hitem)
  have hget := (hholds setsOfTwoTypes).get "made" rfl
  refine ⟨hc, ?_⟩
  rw [hget, (hholds setsOfTwoTypes).value]
  rfl

end Script
end WasmHost
