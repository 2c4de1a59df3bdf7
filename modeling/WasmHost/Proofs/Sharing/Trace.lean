import WasmHost.Proofs.Sharing.Frame

/-!
# WasmHost.Proofs.Sharing.Trace

The operations that an act does, all of them and in their order, also those that a call does deep
down in the functions it runs.

* `store_of_call`: an act that calls a function leaves the store that the call leaves.
* `view_act`: what is seen after an act is what its operations leave, for every act.
-/

namespace WasmHost
namespace Script

def Probe.args : Probe → Args
  | .call _ args => args
  | .callIndirect _ _ _ args => args
  | _ => []

/-- The arguments of the call that an act makes. -/
def Act.args : Act → Args
  | .command (.table _ (.call _ _ args)) => args
  | .command (.function _ (.call args)) => args
  | .command (.tally _ (.check _ _ p)) => p.args
  | _ => []

namespace Session

def effects (s : Session) (a : Act) : List Effect :=
  match s.work a with
  | .none => []
  | .operation _ e => [e]
  | .call f => s.store.effectsOf f a.args

section

variable {s : Session} {a : Act}

/-! ## Acts that call a function -/

theorem operationWork_ne_call (h : Place) (e? : Option Effect) (f : Addr .function) :
    operationWork h e? ≠ .call f := by
  cases e? <;> simp [operationWork]

theorem eq_some_of_callWork {f? : Option (Addr .function)} {f : Addr .function}
    (h : callWork f? = .call f) : f? = some f := by
  cases f? with
  | none => cases h
  | some g =>
    cases h
    rfl

theorem eq_some_of_callee? {name : String} {signature : SignatureRef} {index : BitVec 32}
    {f : Addr .function} (h : s.callee? name signature index = some f) :
    ∃ x id, s.names.find? .table name = some x ∧ s.names.lookupSignature signature = .ok id ∧
      (s.store.table x).callee id index = .ok f := by
  unfold callee? at h
  split at h
  · rename_i x id hx hid
    refine ⟨x, id, hx, hid, ?_⟩
    cases hcallee : (s.store.table x).callee id index with
    | error t =>
      rw [hcallee] at h
      cases h
    | ok g =>
      rw [hcallee] at h
      cases h
      rfl
  · cases h

theorem lookup_of_find? {names : Names} {k : ExternKind} {name : String} {x : Addr k}
    (h : names.find? k name = some x) : names.lookup k name = .ok x := by
  simp only [Names.lookup, h]

theorem store_of_probe {p : Probe} {f : Addr .function} (h : s.probeWork p = .call f) :
    ∃ o, s.probe p = .ok o ∧ o.state = (s.store.call f p.args).state := by
  cases p with
  | call function args =>
    have hfind := eq_some_of_callWork h
    refine ⟨(s.store.call f args).map firstValue, ?_, rfl⟩
    simp only [probe, lookup_of_find? hfind, Except.map]
  | callIndirect table signature index args =>
    obtain ⟨x, id, hx, hid, hcallee⟩ := eq_some_of_callee? (eq_some_of_callWork h)
    refine ⟨(s.store.callIndirect x id index args).map firstValue, ?_, ?_⟩
    · simp only [probe, lookup_of_find? hx, hid]
      rfl
    · simp only [Outcome.map, Store.callIndirect, hcallee, Probe.args]
  | _ => cases h

theorem store_of_call {f : Addr .function} (h : s.work a = .call f) :
    (s.act a).store = (s.store.call f a.args).state := by
  cases a with
  | copy k source target => cases h
  | command c =>
    cases c with
    | memory name c =>
      cases c with
      | perform op => exact absurd h (operationWork_ne_call _ _ f)
      | _ => cases h
    | table name c =>
      cases c with
      | call signature index args =>
        obtain ⟨x, id, hx, hid, hcallee⟩ := eq_some_of_callee? (eq_some_of_callWork h)
        simp only [act, step, tableStep, lookup_of_find? hx, hid, withFound, Store.callIndirect,
          hcallee]
        rfl
      | allocate length max => cases h
      | info => cases h
      | dump => cases h
      | _ => exact absurd h (operationWork_ne_call _ _ f)
    | function name c =>
      cases c with
      | call args =>
        have hfind := eq_some_of_callWork h
        simp only [act, step, functionStep, lookup_of_find? hfind, withFound]
        rfl
      | _ => cases h
    | global name c =>
      cases c with
      | set v => exact absurd h (operationWork_ne_call _ _ f)
      | _ => cases h
    | tally name c =>
      cases c with
      | check label c p =>
        obtain ⟨o, ho, hstate⟩ := store_of_probe h
        simp only [act, step, tallyStep, ho, withFound]
        exact hstate
      | info => cases h
    | _ => cases h

/-! ## Every act -/

variable {item : Extern}

theorem view_act (hitem : s.store.Has item) :
    (s.act a).store.view item = (Effect.applyAll s.store (s.effects a)).view item := by
  unfold effects
  cases hwork : s.work a with
  | none => exact view_idle hwork hitem
  | operation h e =>
    have hleaves := s.leaves_act a
    rw [hwork] at hleaves
    rw [hleaves.2]
    rfl
  | call f => rw [store_of_call hwork, (s.store.call_leads f a.args).state]

/-- An act changes nothing but what its operations are on. -/
theorem view_act_of_forall_ne (hitem : s.store.Has item) (h : ∀ e ∈ s.effects a, e.target ≠ item) :
    (s.act a).store.view item = s.store.view item := by
  rw [view_act hitem, Effect.view_applyAll hitem, Effect.onAll_of_forall_ne h]

end

end Session
end Script
end WasmHost
