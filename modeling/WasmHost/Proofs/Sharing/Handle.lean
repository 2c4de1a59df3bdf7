import WasmHost.Script.Session
import WasmHost.Store.View

/-!
# WasmHost.Proofs.Sharing.Handle

Where a session keeps handles: at the names of the script and under the keys of its registries.
What is seen through a handle is the object it refers to as that is now. A run is a list of acts,
commands of the script and plain copies of handles.

* `itemAt_named`, `itemAt_setRegistry_key`: the two ways in which a place gets another handle.
* `still_withFound`, `still_ofStore`: what moves no handle.
-/

namespace WasmHost
namespace Script

inductive Place where
  | name (k : ExternKind) (name : String)
  | key (registry : String) (key : ExportKey)
  deriving DecidableEq

/-- A command of the script, or a handle copied from one name to another. -/
inductive Act where
  | command (c : Command)
  | copy (k : ExternKind) (source target : String)

namespace Session

def itemAt (s : Session) : Place → Option Extern
  | .name k name => (s.names.find? k name).bind (Extern.shared? k)
  | .key r key => (s.registry r).find? key

/-- What is seen through the handle at a place. -/
def observe (s : Session) (p : Place) : Option View := (s.itemAt p).map s.store.view

def act (s : Session) : Act → Session
  | .command c => (s.step c).state
  | .copy k source target =>
    match s.names.find? k source with
    | some a => s.named k target a
    | none => s

/-- The session after a run of acts, failed ones among them, that starts with nothing. -/
def reached (run : List Act) : Session := run.foldl act empty

/-- A script is a run of its commands. -/
theorem reached_commands (script : List Command) :
    reached (script.map .command) = empty.after script := by
  unfold reached after
  rw [List.foldl_map]
  rfl

end Session

namespace Names

theorem find?_save_same {k : ExternKind} {a : Addr k} {item : Extern}
    (h : Extern.shared? k a = some item) (n : Names) (name name' : String) :
    (n.save k name a).find? k name' = if name' = name then some a else n.find? k name' := by
  cases k with
  | constant => cases h
  | function => exact Directory.find?_insert n.functions name name' a
  | table => exact Directory.find?_insert n.tables name name' a
  | memory => exact Directory.find?_insert n.memories name name' a
  | global => exact Directory.find?_insert n.globals name name' a

theorem find?_save_other {k k' : ExternKind} (h : k' ≠ k) (n : Names) (name name' : String)
    (a : Addr k) : (n.save k name a).find? k' name' = n.find? k' name' := by
  cases k <;> cases k' <;> first | rfl | exact absurd rfl h

end Names

namespace Session

section

variable (s : Session)

theorem itemAt_named {k : ExternKind} {a : Addr k} {item : Extern}
    (h : Extern.shared? k a = some item) (name : String) (p : Place) :
    (s.named k name a).itemAt p = if p = .name k name then some item else s.itemAt p := by
  cases p with
  | key r key => rfl
  | name k' name' =>
    by_cases hk : k' = k
    · subst hk
      simp only [itemAt, named, Names.find?_save_same h, Place.name.injEq, true_and]
      by_cases hname : name' = name
      · simp [hname, h]
      · simp [hname]
    · simp only [itemAt, named, Names.find?_save_other hk, Place.name.injEq]
      simp [hk]

theorem itemAt_saveExtern_of_shared {k : ExternKind} {a : Addr k} {item : Extern}
    (h : Extern.shared? k a = some item) (name : String) (p : Place) :
    ({ s with names := s.names.saveExtern name item } : Session).itemAt p =
      if p = .name item.kind name then some item else s.itemAt p := by
  cases k with
  | constant => cases h
  | _ =>
    cases h
    exact s.itemAt_named rfl name p

theorem registry_setRegistry (name r : String) (reg : Registry) :
    (s.setRegistry name reg).registry r = if r = name then reg else s.registry r := by
  unfold registry setRegistry
  simp only [Directory.find?_insert]
  by_cases h : r = name
  · rw [if_pos h, if_pos h]
    rfl
  · rw [if_neg h, if_neg h]

theorem itemAt_setRegistry_key (name r : String) (reg : Registry) (key : ExportKey) :
    (s.setRegistry name reg).itemAt (.key r key) =
      if r = name then reg.find? key else s.itemAt (.key r key) := by
  simp only [itemAt, registry_setRegistry]
  by_cases h : r = name
  · rw [if_pos h, if_pos h]
  · rw [if_neg h, if_neg h]

end

/-! ## Commands that move no handle -/

/-- Every place holds in the second session what it held in the first. -/
def Still (s s' : Session) : Prop := ∀ p, s'.itemAt p = s.itemAt p

section

variable {s : Session} {α : Type}

theorem Still.refl (s : Session) : Still s s := fun _ => rfl

theorem still_withStore (store : Store) : Still s (s.withStore store) := by
  intro p
  cases p with
  | name k name => rfl
  | key r key => rfl

/-- The names of signatures stand for no handle. -/
theorem still_saveSignature (s : Session) (id : SignatureId) (save? : Option String) :
    Still s (s.saveSignature id save?) := by
  intro p
  cases save? with
  | none => rfl
  | some saved =>
    cases p with
    | key r key => rfl
    | name k name => cases k <;> rfl

theorem still_ofStore (o : Outcome Store Trap α) (reply : Store → α → Reply) :
    Still s (s.ofStore o reply).state :=
  still_withStore o.state

theorem still_withFound {found : Except Failure α} {k : α → Step}
    (h : ∀ a, Still s (k a).state) : Still s (s.withFound found k).state := by
  cases found with
  | ok a => exact h a
  | error e => exact Still.refl s

end

end Session
end Script
end WasmHost
