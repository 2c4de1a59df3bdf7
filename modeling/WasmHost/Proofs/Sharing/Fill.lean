import WasmHost.Proofs.Registry.Overlay
import WasmHost.Proofs.Sharing.Handle
import WasmHost.Spectest.Lemmas

/-!
# WasmHost.Proofs.Sharing.Fill

What an act does to the places where handles are. `fill` tells for every place whether the act
leaves it alone, copies into it what is at another place, or puts into it a constant or an object
that it made.

* `done_fill`: after an act each place holds what `fill` tells, for every act, also one that fails.
-/

namespace WasmHost
namespace Script

/-- What an act does to one place. -/
inductive Fill where
  | kept
  | copied (source : Place)
  /-- The object that the act made after `index` others of its kind. -/
  | made (k : ExternKind) (index : Nat)
  | constant (v : Value)

/-- Keeps all places. -/
def Fill.none (_ : Place) : Fill := .kept

/-- Fills one place and keeps all others. -/
def Fill.only (target : Place) (f : Fill) (p : Place) : Fill := if p = target then f else .kept

namespace Session

/-! ## What acts do to places -/

def fillMemory (name : String) : MemoryCommand → Place → Fill
  | .allocate initial max =>
    match Memory.allocate initial max with
    | .ok _ => .only (.name .memory name) (.made .memory 0)
    | .error _ => .none
  | _ => .none

def fillTable (name : String) : TableCommand → Place → Fill
  | .allocate length max =>
    match Table.allocate length max with
    | .ok _ => .only (.name .table name) (.made .table 0)
    | .error _ => .none
  | _ => .none

def fillFunction (s : Session) (name : String) : FunctionCommand → Place → Fill
  | .make _ body =>
    match s.names.lookupBody body with
    | .ok _ => .only (.name .function name) (.made .function 0)
    | .error _ => .none
  | _ => .none

def fillGlobal (name : String) : GlobalCommand → Place → Fill
  | .make _ => .only (.name .global name) (.made .global 0)
  | _ => .none

/-- A handle is copied if it is there. -/
def fillCopy (s : Session) (source target : Place) : Place → Fill :=
  if (s.itemAt source).isSome then .only target (.copied source) else .none

/-- An import copies what it finds to a name of its kind; no name stands for a constant. -/
def fillFound (key : Place) (name : String) : Except LinkError Extern → Place → Fill
  | .ok (.constant _) => .none
  | .ok item => .only (.name item.kind name) (.copied key)
  | .error _ => .none

/-- Every field of the source is copied to the target's key. -/
def fillOverlay (s : Session) (r target source : String) : Place → Fill
  | .key r' key =>
    if r' = r ∧ key.module = target ∧ (s.itemAt (.key r ⟨source, key.field⟩)).isSome then
      .copied (.key r ⟨source, key.field⟩)
    else
      .kept
  | .name .. => .kept

/-- Every field of the test module gets the object that was made for it. -/
def fillSpectest (r module : String) : Place → Fill
  | .key r' key =>
    if r' = r ∧ key.module = module then
      match Spectest.exports.lookup key.field with
      | some (k, i) => .made k i
      | none => .kept
    else
      .kept
  | .name .. => .kept

/-- Every key of the new registry is copied, or left empty, as in the old one. -/
def fillClone (r target : String) : Place → Fill
  | .key r' key => if r' = target then .copied (.key r key) else .kept
  | .name .. => .kept

def fillRegistry (s : Session) (r : String) : RegistryCommand → Place → Fill
  | .define module field (.constant v) => .only (.key r ⟨module, field⟩) (.constant v)
  | .define module field (.named k name) => s.fillCopy (.name k name) (.key r ⟨module, field⟩)
  | .resolve module field kind? (some name) =>
    fillFound (.key r ⟨module, field⟩) name ((s.registry r).resolve ⟨module, field⟩ kind?).1
  | .resolve _ _ _ none => .none
  | .contains .. => .none
  | .overlay target source => s.fillOverlay r target source
  | .spectest module => fillSpectest r module
  | .copyTo target => fillClone r target

/-- An act that fails fills no place. -/
def fill (s : Session) : Act → Place → Fill
  | .copy k source target => s.fillCopy (.name k source) (.name k target)
  | .command (.memory name c) => fillMemory name c
  | .command (.table name c) => fillTable name c
  | .command (.function name c) => s.fillFunction name c
  | .command (.global name c) => fillGlobal name c
  | .command (.registry r c) => s.fillRegistry r c
  | .command (.signature ..) => .none
  | .command (.tally ..) => .none
  | .command (.same ..) => .none

end Session

/-- The place has been filled so by an act that led from one session to the other. -/
def Fill.Done (s s' : Session) (p : Place) : Fill → Prop
  | .kept => s'.itemAt p = s.itemAt p
  | .copied q => s'.itemAt p = s.itemAt q
  | .made k i => s'.itemAt p = s.store.fresh? k i ∧ s.store.count k + i < s'.store.count k
  | .constant v => s'.itemAt p = some (.constant v)

theorem Fill.done_only {s s' : Session} {target : Place} {f : Fill} (htarget : f.Done s s' target)
    (hother : ∀ p, p ≠ target → s'.itemAt p = s.itemAt p) (p : Place) :
    (Fill.only target f p).Done s s' p := by
  unfold Fill.only
  by_cases h : p = target
  · rw [if_pos h, h]
    exact htarget
  · rw [if_neg h]
    exact hother p h

namespace Session

/-! ## Each command -/

section

variable (s : Session) (p : Place)

/-- A new object gets a name, which from then on holds it. -/
theorem done_made {k : ExternKind} {a : Addr k} {item : Extern} {store : Store}
    (h : Extern.shared? k a = some item) (hfresh : s.store.fresh? k 0 = some item)
    (hcount : s.store.count k < store.count k) (name : String) :
    (Fill.only (.name k name) (.made k 0) p).Done s ((s.withStore store).named k name a) p := by
  have hitem := (s.withStore store).itemAt_named h name
  refine Fill.done_only (f := .made k 0) ⟨?_, hcount⟩ ?_ p
  · rw [hitem, if_pos rfl, hfresh]
  · intro q hq
    rw [hitem, if_neg hq]
    exact still_withStore store q

theorem done_memoryStep (name : String) (c : MemoryCommand) :
    (fillMemory name c p).Done s (s.memoryStep name c).state p := by
  cases c with
  | allocate initial max =>
    simp only [memoryStep, fillMemory]
    cases Memory.allocate initial max with
    | error e => exact Still.refl s p
    | ok m => exact s.done_made p rfl rfl (by simp [Store.count_addMemory]) name
  | info => exact still_withFound (fun _ => Still.refl s) p
  | perform op => exact still_withFound (fun _ => still_ofStore _ _) p
  | dump => exact still_withFound (fun _ => Still.refl s) p

theorem done_tableStep (name : String) (c : TableCommand) :
    (fillTable name c p).Done s (s.tableStep name c).state p := by
  cases c with
  | allocate length max =>
    simp only [tableStep, fillTable]
    cases Table.allocate length max with
    | error e => exact Still.refl s p
    | ok t => exact s.done_made p rfl rfl (by simp [Store.count_addTable]) name
  | info => exact still_withFound (fun _ => Still.refl s) p
  | get index => exact still_withFound (fun _ => still_ofStore _ _) p
  | set index e =>
    exact still_withFound (fun _ => still_withFound fun _ => still_ofStore _ _) p
  | clear index => exact still_withFound (fun _ => still_ofStore _ _) p
  | init offset es =>
    exact still_withFound (fun _ => still_withFound fun _ => still_ofStore _ _) p
  | grow delta slot =>
    exact still_withFound (fun _ => still_withFound fun _ => still_ofStore _ _) p
  | callee signature index =>
    exact still_withFound (fun _ => still_withFound fun _ => still_ofStore _ _) p
  | call signature index args =>
    exact still_withFound (fun _ => still_withFound fun _ => still_ofStore _ _) p
  | dump => exact still_withFound (fun _ => Still.refl s) p

theorem done_functionStep (name : String) (c : FunctionCommand) :
    (s.fillFunction name c p).Done s (s.functionStep name c).state p := by
  cases c with
  | make shown body =>
    simp only [functionStep, fillFunction]
    cases s.names.lookupBody body with
    | error e => exact Still.refl s p
    | ok body => exact s.done_made p rfl rfl (by simp [Store.count_addFunction]) name
  | info => exact still_withFound (fun _ => Still.refl s) p
  | call args => exact still_withFound (fun _ => still_ofStore _ _) p

theorem done_globalStep (name : String) (c : GlobalCommand) :
    (fillGlobal name c p).Done s (s.globalStep name c).state p := by
  cases c with
  | make v =>
    have hcount : s.store.count .global < (s.store.addGlobal v).1.count .global := by
      simp [Store.count_addGlobal]
    exact s.done_made p rfl rfl hcount name
  | get => exact still_withFound (fun _ => Still.refl s) p
  | set v =>
    refine still_withFound (fun a => ?_) p
    cases s.store.setGlobal a v with
    | ok store => exact still_withStore store
    | error e => exact Still.refl s
  | expect t =>
    refine still_withFound (fun a => ?_) p
    cases s.store.expectGlobal a t with
    | ok a => exact Still.refl s
    | error e => exact Still.refl s

theorem still_signatureStep (name : String) (c : SignatureCommand) :
    Still s (s.signatureStep name c).state := by
  cases c with
  | info => exact Still.refl s
  | perform op save? =>
    simp only [signatureStep]
    obtain ⟨i, id?, events⟩ := (s.interner name).perform op
    cases id? with
    | none => exact Still.refl s
    | some id => exact still_saveSignature _ id save?

theorem still_tallyStep (name : String) (c : TallyCommand) :
    Still s (s.tallyStep name c).state := by
  cases c with
  | info => exact Still.refl s
  | check label a probe => exact still_withFound fun o => still_withStore o.state

theorem still_sameStep (k : ExternKind) (a b : String) : Still s (s.sameStep k a b).state :=
  still_withFound fun _ => still_withFound fun _ => Still.refl s

/-! ## Registries -/

theorem itemAt_registryPerform_same (name : String) (op : Registry.Op) (key : ExportKey) :
    (s.registryPerform name op).state.itemAt (.key name key) =
      (Registry.perform s.store (s.registry name) op).state.2.find? key :=
  (itemAt_setRegistry_key _ name name _ key).trans (if_pos rfl)

/-- An operation on one registry moves no name and no key of another. -/
theorem itemAt_registryPerform_other (name : String) (op : Registry.Op) {p : Place}
    (h : ∀ key, p ≠ .key name key) : (s.registryPerform name op).state.itemAt p = s.itemAt p := by
  cases p with
  | name k n => rfl
  | key r key =>
    have hr : r ≠ name := by
      rintro rfl
      exact h key rfl
    exact (itemAt_setRegistry_key _ name r _ key).trans (if_neg hr)

theorem done_define (name : String) (key : ExportKey) {item : Extern} {f : Fill}
    (h : (s.registryPerform name (.define key item)).state.itemAt (.key name key) = some item →
      f.Done s (s.registryPerform name (.define key item)).state (.key name key)) :
    (Fill.only (.key name key) f p).Done s (s.registryPerform name (.define key item)).state p := by
  refine Fill.done_only (h ?_) (fun q hq => ?_) p
  · rw [itemAt_registryPerform_same]
    exact ((s.registry name).find?_define key key item).trans (if_pos rfl)
  · cases q with
    | name k n => exact s.itemAt_registryPerform_other name _ (by simp)
    | key r key' =>
      by_cases hr : r = name
      · subst hr
        have hne : key' ≠ key := fun heq => hq (congrArg (Place.key r) heq)
        rw [itemAt_registryPerform_same]
        exact ((s.registry r).find?_define key key' item).trans (if_neg hne)
      · exact s.itemAt_registryPerform_other name _ (by simp [hr])

theorem done_overlay (name target source : String) :
    (s.fillOverlay name target source p).Done s
      (s.registryPerform name (.overlay target source)).state p := by
  have hoverlay := Registry.isOverlay_overlay (s.registry name) target source
  cases p with
  | name k n => exact s.itemAt_registryPerform_other name _ (by simp)
  | key r key =>
    simp only [fillOverlay]
    split
    · rename_i h
      obtain ⟨rfl, rfl, hsome⟩ := h
      obtain ⟨item, hitem⟩ := Option.isSome_iff_exists.mp hsome
      refine (s.itemAt_registryPerform_same r _ key).trans ?_
      exact (hoverlay.shared key.field item hitem).trans hitem.symm
    · rename_i h
      by_cases hr : r = name
      · subst hr
        refine (s.itemAt_registryPerform_same r _ key).trans ?_
        by_cases hmodule : key.module = target
        · subst hmodule
          exact hoverlay.kept key.field (by simpa [itemAt] using h)
        · exact hoverlay.others key hmodule
      · exact s.itemAt_registryPerform_other name _ (by simp [hr])

theorem done_spectest (name module : String) :
    (fillSpectest name module p).Done s (s.registryPerform name (.spectest module)).state p := by
  cases p with
  | name k n => exact s.itemAt_registryPerform_other name _ (by simp)
  | key r key =>
    by_cases hr : r = name
    · subst hr
      have hfind := s.itemAt_registryPerform_same r (.spectest module) key
      rw [Registry.state_perform_spectest] at hfind
      by_cases hmodule : key.module = module
      · obtain ⟨module', field⟩ := key
        cases hmodule
        simp only [fillSpectest, and_self, if_true]
        cases hlookup : Spectest.exports.lookup field with
        | none =>
          have hkept := Spectest.not_mem_fields_of_lookup hlookup
          exact hfind.trans (Spectest.find?_register_of_not_mem hkept)
        | some made =>
          obtain ⟨k, i⟩ := made
          have hmem := Spectest.mem_exports_of_lookup hlookup
          obtain ⟨item, hfresh⟩ := Spectest.fresh?_of_mem_exports s.store hmem
          have hitem := Spectest.mem_items_iff.mpr ⟨k, i, hmem, hfresh⟩
          have hcount := Spectest.count_register s.store (s.registry r) module' k
          refine ⟨(hfind.trans (Spectest.find?_register_of_mem hitem)).trans hfresh.symm, ?_⟩
          refine Nat.lt_of_lt_of_eq (Nat.add_lt_add_left ?_ _) hcount.symm
          exact Spectest.place_lt_of_mem_exports hmem
      · simp only [fillSpectest, hmodule, and_false, if_false]
        exact hfind.trans (Spectest.find?_register_of_module_ne hmodule)
    · simp only [fillSpectest, hr, false_and, if_false]
      exact s.itemAt_registryPerform_other name _ (by simp [hr])

/-- A look-up in a registry moves no handle. -/
theorem still_registryPerform (name : String) (op : Registry.Op)
    (h : (Registry.perform s.store (s.registry name) op).state.2 = s.registry name) :
    Still s (s.registryPerform name op).state := by
  intro p
  cases p with
  | name k n => exact s.itemAt_registryPerform_other name op (by simp)
  | key r key =>
    by_cases hr : r = name
    · subst hr
      rw [itemAt_registryPerform_same, h]
      rfl
    · exact s.itemAt_registryPerform_other name op (by simp [hr])

theorem done_saveFound {s' : Session} (hstill : Still s s') {key : Place} {item : Extern}
    (hitem : s.itemAt key = some item) (name : String) :
    (fillFound key name (.ok item) p).Done s (s'.saveItem (.item item) (some name)) p := by
  have hshared : ∀ (k : ExternKind) (a : Addr k), Extern.shared? k a = some item →
      (Fill.only (.name item.kind name) (.copied key) p).Done s
        (s'.saveItem (.item item) (some name)) p := by
    intro k a h
    have hsaved := s'.itemAt_saveExtern_of_shared h name
    refine Fill.done_only ?_ (fun q hq => ?_) p
    · exact ((hsaved _).trans (if_pos rfl)).trans hitem.symm
    · exact ((hsaved q).trans (if_neg hq)).trans (hstill q)
  cases item with
  | constant v => exact hstill p
  | function a => exact hshared .function a rfl
  | table a => exact hshared .table a rfl
  | memory a => exact hshared .memory a rfl
  | global a => exact hshared .global a rfl

theorem done_resolve (name module field : String) (kind? : Option ExternKind)
    (save? : Option String) :
    (s.fillRegistry name (.resolve module field kind? save?) p).Done s
      (s.registryStep name (.resolve module field kind? save?)).state p := by
  have hstill : Still s (s.registryPerform name (.resolve ⟨module, field⟩ kind?)).state :=
    s.still_registryPerform name _ rfl
  have hresult : (s.registryPerform name (.resolve ⟨module, field⟩ kind?)).result =
      (((s.registry name).resolve ⟨module, field⟩ kind?).1.map .item).mapError .link := rfl
  simp only [registryStep, Outcome.andThen, hresult]
  cases hfound : ((s.registry name).resolve ⟨module, field⟩ kind?).1 with
  | error e =>
    cases save? with
    | none => exact hstill p
    | some saved =>
      simp only [fillRegistry, hfound]
      exact hstill p
  | ok item =>
    cases save? with
    | none => exact hstill p
    | some saved =>
      simp only [fillRegistry, hfound]
      have hitem : s.itemAt (.key name ⟨module, field⟩) = some item :=
        Registry.find?_of_resolve _ hfound
      exact s.done_saveFound p hstill hitem saved

theorem lookupExtern_named (k : ExternKind) (name : String) :
    s.names.lookupExtern (.named k name) =
      match s.itemAt (.name k name) with
      | some item => .ok item
      | none => .error (.unknownName name) := by
  cases k with
  | constant => rfl
  | _ =>
    simp only [Names.lookupExtern, Names.lookup, itemAt]
    generalize s.names.find? _ name = found
    cases found with
    | none => rfl
    | some a => rfl

theorem done_clone (name target : String) :
    (fillClone name target p).Done s (s.setRegistry target (s.registry name)) p := by
  cases p with
  | name k n => exact Still.refl s (.name k n)
  | key r key =>
    have hfind := s.itemAt_setRegistry_key target r (s.registry name) key
    by_cases hr : r = target
    · simp only [fillClone, if_pos hr]
      exact hfind.trans (if_pos hr)
    · simp only [fillClone, if_neg hr]
      exact hfind.trans (if_neg hr)

theorem done_registryStep (name : String) (c : RegistryCommand) :
    (s.fillRegistry name c p).Done s (s.registryStep name c).state p := by
  cases c with
  | define module field item =>
    cases item with
    | constant v => exact s.done_define p name ⟨module, field⟩ id
    | named k n =>
      simp only [registryStep, fillRegistry, fillCopy, lookupExtern_named]
      cases hitem : s.itemAt (.name k n) with
      | none => exact Still.refl s p
      | some item =>
        refine s.done_define p name ⟨module, field⟩ fun hdefined => ?_
        exact hdefined.trans hitem.symm
  | resolve module field kind? save? => exact s.done_resolve p name module field kind? save?
  | contains module field => exact s.still_registryPerform name (.contains ⟨module, field⟩) rfl p
  | overlay target source => exact s.done_overlay p name target source
  | spectest module => exact s.done_spectest p name module
  | copyTo target => exact s.done_clone p name target

/-! ## Each act -/

theorem done_copy (k : ExternKind) (source target : String) :
    (s.fillCopy (.name k source) (.name k target) p).Done s (s.act (.copy k source target)) p := by
  have hshared : ∀ a, s.names.find? k source = some a →
      ∃ item, Extern.shared? k a = some item := by
    intro a ha
    cases k with
    | constant => cases ha
    | _ => exact ⟨_, rfl⟩
  unfold act fillCopy
  cases hfind : s.names.find? k source with
  | none =>
    have hitem : s.itemAt (.name k source) = none := by simp [itemAt, hfind]
    simp only [hfind, hitem]
    exact Still.refl s p
  | some a =>
    obtain ⟨item, ha⟩ := hshared a hfind
    have hitem : s.itemAt (.name k source) = some item := by simp [itemAt, hfind, ha]
    have hnamed := s.itemAt_named ha target
    simp only [hfind, hitem, Option.isSome_some, if_true]
    refine Fill.done_only ?_ (fun q hq => ?_) p
    · exact ((hnamed _).trans (if_pos rfl)).trans hitem.symm
    · exact (hnamed q).trans (if_neg hq)

/-- Every act, also one that fails, fills each place as `fill` tells. -/
theorem done_fill (a : Act) : (s.fill a p).Done s (s.act a) p := by
  cases a with
  | copy k source target => exact s.done_copy p k source target
  | command c =>
    cases c with
    | memory name c => exact s.done_memoryStep p name c
    | table name c => exact s.done_tableStep p name c
    | function name c => exact s.done_functionStep p name c
    | global name c => exact s.done_globalStep p name c
    | signature name c => exact s.still_signatureStep name c p
    | registry name c => exact s.done_registryStep p name c
    | tally name c => exact s.still_tallyStep name c p
    | same k a b => exact s.still_sameStep k a b p

end

end Session
end Script
end WasmHost
