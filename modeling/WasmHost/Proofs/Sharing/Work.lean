import WasmHost.Proofs.Sharing.Call
import WasmHost.Proofs.Sharing.Handle
import WasmHost.Spectest.Lemmas

/-!
# WasmHost.Proofs.Sharing.Work

What an act does to the objects of a session: one operation through the handle that it names, a
call of a function, or nothing. An act that does nothing may still make new objects.

* `leaves_act`: the store after an act, for every act, also one that fails.
* `count_le_act`: no act takes an object away.
-/

namespace WasmHost
namespace Script

inductive Work where
  | none
  | operation (handle : Place) (e : Effect)
  | call (f : Addr .function)

/-- How work leaves the store of a session. -/
def Work.Leaves (s : Session) (store : Store) : Work → Prop
  | .none => s.store.Extends store
  | .operation handle e => s.itemAt handle = some e.target ∧ store = e.apply s.store
  | .call f => s.store.LeftBy (s.store.OperatesOn f) store

namespace Session

/-! ## The work of each command -/

/-- The operation that a command on a table asks for, its elements and signature looked up. -/
def tableOp? (s : Session) : TableCommand → Option Table.Op
  | .get index => some (.get index)
  | .set index e => (s.names.lookupElement e).toOption.map (.set index)
  | .clear index => some (.clear index)
  | .init offset es => (s.names.lookupElements es).toOption.map (.init offset)
  | .grow delta slot => (s.names.lookupSlot slot).toOption.map (.grow delta)
  | .callee signature index =>
    (s.names.lookupSignature signature).toOption.map (.callee · index)
  | _ => none

/-- The function that a table has at an index under a signature. -/
def callee? (s : Session) (table : String) (signature : SignatureRef) (index : BitVec 32) :
    Option (Addr .function) :=
  match s.names.find? .table table, s.names.lookupSignature signature with
  | some a, .ok id => ((s.store.table a).callee id index).toOption
  | _, _ => none

/-- No work is done if a name stands for nothing. -/
def operationWork (handle : Place) : Option Effect → Work
  | some e => .operation handle e
  | none => .none

def callWork : Option (Addr .function) → Work
  | some f => .call f
  | none => .none

def memoryWork (s : Session) (name : String) : MemoryCommand → Work
  | .perform op =>
    operationWork (.name .memory name) ((s.names.find? .memory name).map (.memory · op))
  | _ => .none

def tableWork (s : Session) (name : String) : TableCommand → Work
  | .call signature index _ => callWork (s.callee? name signature index)
  | c =>
    operationWork (.name .table name)
      ((s.tableOp? c).bind fun op => (s.names.find? .table name).map (.table · op))

def functionWork (s : Session) (name : String) : FunctionCommand → Work
  | .call _ => callWork (s.names.find? .function name)
  | _ => .none

def globalWork (s : Session) (name : String) : GlobalCommand → Work
  | .set v => operationWork (.name .global name) ((s.names.find? .global name).map (.global · v))
  | _ => .none

def probeWork (s : Session) : Probe → Work
  | .call function _ => callWork (s.names.find? .function function)
  | .callIndirect table signature index _ => callWork (s.callee? table signature index)
  | _ => .none

def tallyWork (s : Session) : TallyCommand → Work
  | .check _ _ probe => s.probeWork probe
  | .info => .none

def work (s : Session) : Act → Work
  | .copy .. => .none
  | .command (.memory name c) => s.memoryWork name c
  | .command (.table name c) => s.tableWork name c
  | .command (.function name c) => s.functionWork name c
  | .command (.global name c) => s.globalWork name c
  | .command (.signature ..) => .none
  | .command (.registry ..) => .none
  | .command (.tally _ c) => s.tallyWork c
  | .command (.same ..) => .none

section

variable (s : Session)

theorem withFound_lookup (k : ExternKind) (name : String) (f : Addr k → Step) :
    s.withFound (s.names.lookup k name) f =
      match s.names.find? k name with
      | some a => f a
      | none => .fail s (.unknownName name) := by
  unfold Names.lookup
  cases s.names.find? k name with
  | none => rfl
  | some a => rfl

theorem extends_withFound {α : Type} {found : Except Failure α} {f : α → Step}
    (h : ∀ a, s.store.Extends (f a).state.store) :
    s.store.Extends (s.withFound found f).state.store := by
  cases found with
  | ok a => exact h a
  | error e => exact Store.Extends.refl s.store

theorem leaves_memoryStep (name : String) (c : MemoryCommand) :
    (s.memoryWork name c).Leaves s (s.memoryStep name c).state.store := by
  cases c with
  | allocate initial max =>
    simp only [memoryStep, memoryWork]
    cases Memory.allocate initial max with
    | error e => exact Store.Extends.refl s.store
    | ok m => exact s.store.extends_addMemory m
  | info => exact s.extends_withFound fun _ => Store.Extends.refl s.store
  | perform op =>
    simp only [memoryStep, memoryWork, withFound_lookup]
    cases ha : s.names.find? .memory name with
    | none => exact Store.Extends.refl s.store
    | some a => exact ⟨by simp [itemAt, ha, Extern.shared?, Effect.target], rfl⟩
  | dump => exact s.extends_withFound fun _ => Store.Extends.refl s.store

/-- A command on a table that looks something up and then does an operation. -/
theorem leaves_tablePerform {α : Type} (name : String) (found : Except Failure α)
    (op : α → Table.Op) :
    (operationWork (.name .table name) ((found.toOption.map op).bind fun op =>
        (s.names.find? .table name).map (.table · op))).Leaves s
      (s.withFound (s.names.lookup .table name) fun a =>
        s.withFound found fun x => s.tablePerform a (op x)).state.store := by
  rw [withFound_lookup]
  cases found with
  | error e =>
    cases s.names.find? .table name with
    | none => exact Store.Extends.refl s.store
    | some a => exact Store.Extends.refl s.store
  | ok x =>
    cases ha : s.names.find? .table name with
    | none => exact Store.Extends.refl s.store
    | some a => exact ⟨by simp [itemAt, ha, Extern.shared?, Effect.target], rfl⟩

theorem leaves_call (f : Addr .function) (args : Args) :
    (Work.call f).Leaves s (s.store.call f args).state :=
  s.store.call_leftBy f args

theorem leaves_callIndirect {name : String} {signature : SignatureRef} {a : Addr .table}
    {id : SignatureId} (ha : s.names.find? .table name = some a)
    (hid : s.names.lookupSignature signature = .ok id) (index : BitVec 32) (args : Args) :
    (callWork (s.callee? name signature index)).Leaves s
      (s.store.callIndirect a id index args).state := by
  simp only [callee?, ha, hid, Store.callIndirect]
  cases (s.store.table a).callee id index with
  | error t => exact Store.Extends.refl s.store
  | ok f => exact s.leaves_call f args

theorem callee?_of_none {name : String} (h : s.names.find? .table name = none)
    (signature : SignatureRef) (index : BitVec 32) : s.callee? name signature index = none := by
  simp [callee?, h]

theorem callee?_of_error {signature : SignatureRef} {e : Failure}
    (h : s.names.lookupSignature signature = .error e) (name : String) (index : BitVec 32) :
    s.callee? name signature index = none := by
  simp [callee?, h]

theorem leaves_tableStep (name : String) (c : TableCommand) :
    (s.tableWork name c).Leaves s (s.tableStep name c).state.store := by
  cases c with
  | allocate length max =>
    simp only [tableStep]
    cases Table.allocate length max with
    | error e => exact Store.Extends.refl s.store
    | ok t => exact s.store.extends_addTable t
  | info => exact s.extends_withFound fun _ => Store.Extends.refl s.store
  | get index => exact s.leaves_tablePerform name (.ok index) .get
  | set index e => exact s.leaves_tablePerform name (s.names.lookupElement e) (.set index)
  | clear index => exact s.leaves_tablePerform name (.ok index) .clear
  | init offset es =>
    exact s.leaves_tablePerform name (s.names.lookupElements es) (.init offset)
  | grow delta slot => exact s.leaves_tablePerform name (s.names.lookupSlot slot) (.grow delta)
  | callee signature index =>
    exact s.leaves_tablePerform name (s.names.lookupSignature signature) (.callee · index)
  | call signature index args =>
    simp only [tableStep, tableWork, withFound_lookup]
    cases ha : s.names.find? .table name with
    | none =>
      rw [s.callee?_of_none ha]
      exact Store.Extends.refl s.store
    | some a =>
      cases hid : s.names.lookupSignature signature with
      | error e =>
        rw [s.callee?_of_error hid]
        exact Store.Extends.refl s.store
      | ok id => exact s.leaves_callIndirect ha hid index args
  | dump => exact s.extends_withFound fun _ => Store.Extends.refl s.store

theorem leaves_functionStep (name : String) (c : FunctionCommand) :
    (s.functionWork name c).Leaves s (s.functionStep name c).state.store := by
  cases c with
  | make shown body =>
    exact s.extends_withFound fun body => s.store.extends_addFunction ⟨shown, body⟩
  | info => exact s.extends_withFound fun _ => Store.Extends.refl s.store
  | call args =>
    simp only [functionStep, functionWork, withFound_lookup]
    cases s.names.find? .function name with
    | none => exact Store.Extends.refl s.store
    | some f => exact s.leaves_call f args

theorem leaves_globalStep (name : String) (c : GlobalCommand) :
    (s.globalWork name c).Leaves s (s.globalStep name c).state.store := by
  cases c with
  | make v => exact s.store.extends_addGlobal v
  | get => exact s.extends_withFound fun _ => Store.Extends.refl s.store
  | set v =>
    simp only [globalStep, globalWork, withFound_lookup]
    cases ha : s.names.find? .global name with
    | none => exact Store.Extends.refl s.store
    | some a =>
      refine ⟨by simp [itemAt, ha, Extern.shared?, Effect.target], ?_⟩
      simp only [Effect.apply]
      cases s.store.setGlobal a v with
      | ok store => rfl
      | error e => rfl
  | expect t =>
    refine s.extends_withFound fun a => ?_
    cases s.store.expectGlobal a t with
    | ok a => exact Store.Extends.refl s.store
    | error e => exact Store.Extends.refl s.store

theorem extends_signatureStep (name : String) (c : SignatureCommand) :
    s.store.Extends (s.signatureStep name c).state.store := by
  cases c with
  | info => exact Store.Extends.refl s.store
  | perform op save? =>
    simp only [signatureStep]
    obtain ⟨i, id?, events⟩ := (s.interner name).perform op
    cases id? with
    | none => exact Store.Extends.refl s.store
    | some id =>
      cases save? with
      | none => exact Store.Extends.refl s.store
      | some saved => exact Store.Extends.refl s.store

theorem extends_registryStep (name : String) (c : RegistryCommand) :
    s.store.Extends (s.registryStep name c).state.store := by
  cases c with
  | define module field item => exact s.extends_withFound fun _ => Store.Extends.refl s.store
  | contains module field => exact Store.Extends.refl s.store
  | overlay target source => exact Store.Extends.refl s.store
  | spectest module => exact Spectest.extends_register s.store (s.registry name) module
  | copyTo target => exact Store.Extends.refl s.store
  | resolve module field kind? save? =>
    simp only [registryStep, Outcome.andThen]
    cases (s.registryPerform name (.resolve ⟨module, field⟩ kind?)).result with
    | error e => exact Store.Extends.refl s.store
    | ok answer =>
      cases save? with
      | none => exact Store.Extends.refl s.store
      | some saved =>
        cases answer with
        | item item => exact Store.Extends.refl s.store
        | _ => exact Store.Extends.refl s.store

theorem leaves_probe (probe : Probe) :
    match s.probe probe with
    | .ok o => (s.probeWork probe).Leaves s o.state
    | .error _ => (s.probeWork probe).Leaves s s.store := by
  cases probe with
  | returned v => exact Store.Extends.refl s.store
  | trapped t => exact Store.Extends.refl s.store
  | numeric op args => exact Store.Extends.refl s.store
  | call function args =>
    simp only [probe, probeWork, Names.lookup]
    cases s.names.find? .function function with
    | none => exact Store.Extends.refl s.store
    | some f => exact s.leaves_call f args
  | callIndirect table signature index args =>
    simp only [probe, probeWork, Names.lookup]
    cases ha : s.names.find? .table table with
    | none =>
      rw [s.callee?_of_none ha]
      exact Store.Extends.refl s.store
    | some a =>
      cases hid : s.names.lookupSignature signature with
      | error e =>
        rw [s.callee?_of_error hid]
        exact Store.Extends.refl s.store
      | ok id => exact s.leaves_callIndirect ha hid index args
  | load memory k position =>
    simp only [probe, Names.lookup]
    cases s.names.find? .memory memory with
    | none => exact Store.Extends.refl s.store
    | some a => exact Store.Extends.refl s.store

theorem leaves_tallyStep (name : String) (c : TallyCommand) :
    (s.tallyWork c).Leaves s (s.tallyStep name c).state.store := by
  cases c with
  | info => exact Store.Extends.refl s.store
  | check label a probe =>
    have hprobe := s.leaves_probe probe
    simp only [tallyStep, tallyWork]
    cases h : s.probe probe with
    | ok o =>
      rw [h] at hprobe
      exact hprobe
    | error e =>
      rw [h] at hprobe
      exact hprobe

/-! ## The work of each act -/

theorem leaves_act (a : Act) : (s.work a).Leaves s (s.act a).store := by
  cases a with
  | copy k source target =>
    simp only [act]
    cases s.names.find? k source with
    | none => exact Store.Extends.refl s.store
    | some a => exact Store.Extends.refl s.store
  | command c =>
    cases c with
    | memory name c => exact s.leaves_memoryStep name c
    | table name c => exact s.leaves_tableStep name c
    | function name c => exact s.leaves_functionStep name c
    | global name c => exact s.leaves_globalStep name c
    | signature name c => exact s.extends_signatureStep name c
    | registry name c => exact s.extends_registryStep name c
    | tally name c => exact s.leaves_tallyStep name c
    | same k a b =>
      refine s.extends_withFound fun _ => s.extends_withFound fun _ => ?_
      exact Store.Extends.refl s.store

theorem count_le_act (a : Act) (k : ExternKind) : s.store.count k ≤ (s.act a).store.count k := by
  have hleaves := s.leaves_act a
  cases hwork : s.work a with
  | none =>
    rw [hwork] at hleaves
    exact hleaves.count_le k
  | operation h e =>
    rw [hwork] at hleaves
    rw [hleaves.2]
    exact Nat.le_of_eq (Effect.count_apply s.store e k).symm
  | call f =>
    rw [hwork] at hleaves
    obtain ⟨es, _, hstore⟩ := hleaves
    rw [hstore]
    exact Nat.le_of_eq (Effect.count_applyAll s.store es k).symm

end

end Session
end Script
end WasmHost
