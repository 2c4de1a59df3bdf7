import WasmHost.Proofs.Registry.Spectest
import WasmHost.Proofs.Sharing.Objects
import WasmHost.Proofs.Sharing.Trace

/-!
# WasmHost.Proofs.Sharing.Registration

Registrations of the test module in a running session. Each makes its objects anew, so handles from
two of them are never the same object, and what is done through handles from one is not seen through
handles from the other.

* `effects_of_print`: calling what a registration exports does nothing to any object.
* `confined_of_through`: work through handles from a registration is on its own objects.
* `view_of_confined`: one act that works on objects of one step leaves those of another.
* `view_append_of_confined`: a run of such acts, by induction on it from its end.
* `registrations_are_independent`: all of it, with what a registration leaves.
-/

namespace WasmHost
namespace Script

open Session

/-- The act that registers the test module. -/
def registration (r module : String) : Act := .command (.registry r (.spectest module))

/-- The act that imports what is under a key, as an item of a kind, and gives it a name. -/
def importing (r : String) (key : ExportKey) (k : ExternKind) (name : String) : Act :=
  .command (.registry r (.resolve key.module key.field (some k) (some name)))

/-- The item is an object that step `i` of the run made. -/
def MadeAt (run : List Act) (i : Nat) (item : Extern) : Prop :=
  ∃ c : Creation, c.Of run ∧ c.step = i ∧ c.item? run = some item

/-- The act at step `i` of the run is a registration of the test module. -/
def RegistersAt (run : List Act) (i : Nat) : Prop :=
  ∃ r module, run[i]? = some (registration r module)

/-- The place is a key of the registration at step `i`, or traces back to one. -/
def FromRegistration (run : List Act) (i : Nat) (p : Place) : Prop :=
  RegistersAt run i ∧ ∃ c, origin? run p = some c ∧ c.step = i

/-- The act works through handles from the registration at step `i`, or does no work at all. -/
def Through (run : List Act) (i : Nat) (a : Act) : Prop :=
  match (reached run).work a with
  | .none => True
  | .operation p _ => FromRegistration run i p
  | .call f => ∃ p, FromRegistration run i p ∧ (reached run).itemAt p = some (.function f)

/-- Every operation that the act does, by itself or in a call, is on an object of step `i`. -/
def Confined (run : List Act) (i : Nat) (a : Act) : Prop :=
  ∀ e ∈ (reached run).effects a, MadeAt run i e.target

/-- The same of every act of a run that goes on. -/
def ConfinedRun (run : List Act) (i : Nat) (later : List Act) : Prop :=
  ∀ before a after, later = before ++ a :: after → Confined (run ++ before) i a

section

variable {run later : List Act} {i j : Nat} {a : Act} {p q : Place} {item : Extern}

/-! ## Objects and the steps that made them -/

theorem MadeAt.append (h : MadeAt run i item) (more : List Act) : MadeAt (run ++ more) i item := by
  obtain ⟨c, hof, hstep, hitem⟩ := h
  exact ⟨c, hof.append more, hstep, (hof.item?_append more).trans hitem⟩

theorem MadeAt.has (h : MadeAt run i item) : (reached run).store.Has item := by
  obtain ⟨c, hof, _, hitem⟩ := h
  exact hof.has hitem

theorem MadeAt.step_eq (h : MadeAt run i item) (h' : MadeAt run j item) : i = j := by
  obtain ⟨c, hof, rfl, hitem⟩ := h
  obtain ⟨d, hof', rfl, hitem'⟩ := h'
  rw [hof.eq_of_item?_eq hof' (hitem.trans hitem'.symm)]

theorem FromRegistration.madeAt (h : FromRegistration run i p)
    (hitem : (reached run).itemAt p = some item) : MadeAt run i item := by
  obtain ⟨_, c, horigin, hstep⟩ := h
  obtain ⟨hof, hmade⟩ := of_origin?_eq_some horigin
  exact ⟨c, hof, hstep, hmade.symm.trans hitem⟩

theorem RegistersAt.append (h : RegistersAt run i) (more : List Act) :
    RegistersAt (run ++ more) i := by
  obtain ⟨r, module, hact⟩ := h
  obtain ⟨hlt, _⟩ := List.getElem?_eq_some_iff.mp hact
  exact ⟨r, module, by rw [List.getElem?_append_left hlt, hact]⟩

/-! ## What the exports do -/

theorem store_registration (run : List Act) (r module : String) :
    (reached (run ++ [registration r module])).store =
      (Spectest.register (reached run).store ((reached run).registry r) module).state.1 := by
  rw [reached_concat]
  rfl

/-- The functions that a registration makes print. They are behind those that there were before. -/
theorem function_of_registers {r module : String} {n : Nat}
    (h : (reached run).store.count .function + n <
      (reached (run ++ [registration r module])).store.count .function) :
    ∃ field, (reached (run ++ [registration r module])).store.function
      ⟨(reached run).store.count .function + n⟩ = ⟨module ++ "." ++ field, .print field⟩ := by
  rw [store_registration] at h ⊢
  rw [Spectest.count_register] at h
  have hn : n < Spectest.printFields.length := Nat.lt_of_add_lt_add_left h
  exact ⟨_, Spectest.function_register _ _ _ (List.getElem?_eq_getElem hn)⟩

/-- They do so ever after. -/
theorem function_of_madeAt {f : Addr .function} (hregisters : RegistersAt run i)
    (h : MadeAt run i (.function f)) :
    ∃ name field, (reached run).store.function f = ⟨name, .print field⟩ := by
  obtain ⟨r, module, hact⟩ := hregisters
  obtain ⟨⟨step, k, n⟩, hof, hstep, hitem⟩ := h
  obtain rfl : i = step := hstep.symm
  obtain rfl : ExternKind.function = k := Creation.kind_of_item? hitem
  have hnext : run.take (i + 1) = run.take i ++ [registration r module] := by
    rw [List.take_add_one, hact]
    rfl
  have hf : ⟨(reached (run.take i)).store.count .function + n⟩ = f :=
    Extern.function.inj (Option.some.inj hitem)
  have hmade : (reached (run.take (i + 1))).store.Has (.function f) := hf ▸ hof.made
  have hlater : (reached run).store.function f = (reached (run.take (i + 1))).store.function f := by
    conv_lhs => rw [← List.take_append_drop (i + 1) run]
    exact function_append hmade
  rw [hlater, ← hf, hnext]
  rw [← hf, hnext] at hmade
  obtain ⟨field, hfield⟩ := function_of_registers hmade
  exact ⟨_, field, hfield⟩

theorem effects_of_print {f : Addr .function} (hwork : (reached run).work a = .call f)
    (hregisters : RegistersAt run i) (h : MadeAt run i (.function f)) :
    (reached run).effects a = [] := by
  obtain ⟨name, field, hfunction⟩ := function_of_madeAt hregisters h
  obtain ⟨depth, hdepth⟩ := Nat.exists_eq_add_one_of_ne_zero
    ((reached run).store.depthLimit_pos a.args).ne'
  simp only [effects, hwork, Store.effectsOf, hdepth, Store.effectsWithin, hfunction]

/-! ## Acts through handles -/

theorem confined_of_through (h : Through run i a) : Confined run i a := by
  unfold Through at h
  intro e he
  have hleaves := (reached run).leaves_act a
  cases hwork : (reached run).work a with
  | none => simp [effects, hwork] at he
  | operation p e' =>
    rw [hwork] at h hleaves
    simp only [effects, hwork, List.mem_singleton] at he
    rw [he]
    exact h.madeAt hleaves.1
  | call f =>
    rw [hwork] at h
    obtain ⟨p, hfrom, hitem⟩ := h
    rw [effects_of_print hwork hfrom.1 (hfrom.madeAt hitem)] at he
    cases he

theorem view_of_confined (ha : Confined run i a) (hij : i ≠ j) (hitem : MadeAt run j item) :
    ((reached run).act a).store.view item = (reached run).store.view item := by
  refine view_act_of_forall_ne hitem.has ?_
  intro e he heq
  exact hij ((heq ▸ ha e he).step_eq hitem)

theorem ConfinedRun.of_concat (h : ConfinedRun run i (later ++ [a])) :
    ConfinedRun run i later ∧ Confined (run ++ later) i a := forall_split_concat h

theorem view_append_of_confined (h : ConfinedRun run i later) (hij : i ≠ j)
    (hitem : MadeAt run j item) :
    (reached (run ++ later)).store.view item = (reached run).store.view item := by
  induction later using List.reverseRecOn with
  | nil => simp
  | append_singleton later a ih =>
    obtain ⟨hlater, ha⟩ := h.of_concat
    rw [← List.append_assoc, reached_concat, view_of_confined ha hij (hitem.append later)]
    exact ih hlater

/-- Handles to an object show the same after such a run, also those that were imported during it. -/
theorem observe_append_of_confined (h : ConfinedRun run i later) (hij : i ≠ j)
    (hp : FromRegistration run j p) (hq : origin? (run ++ later) q = origin? run p) :
    (reached (run ++ later)).observe q = (reached run).observe p := by
  have ⟨_, c, horigin, _⟩ := hp
  obtain ⟨hof, hitemp⟩ := of_origin?_eq_some horigin
  obtain ⟨_, hitemq⟩ := of_origin?_eq_some (hq.trans horigin)
  have hitem : (reached (run ++ later)).itemAt q = (reached run).itemAt p := by
    rw [hitemq, hitemp, hof.item?_append later]
  unfold observe
  rw [hitem]
  cases hmade : (reached run).itemAt p with
  | none => rfl
  | some item => exact congrArg some (view_append_of_confined h hij (hp.madeAt hmade))

/-! ## Registrations -/

theorem registersAt_registration (run : List Act) (r module : String) (later : List Act) :
    RegistersAt (run ++ registration r module :: later) run.length :=
  ⟨r, module, by simp⟩

theorem fromRegistration_key (run : List Act) (r module : String) {field : String}
    (h : field ∈ Spectest.fields) :
    FromRegistration (run ++ [registration r module]) run.length (.key r ⟨module, field⟩) := by
  obtain ⟨k, n, hmem⟩ := Spectest.mem_exports_of_mem_fields h
  have hall : ∀ e ∈ Spectest.exports, Spectest.exports.lookup e.1 = some e.2 := by decide
  have hfill : (reached run).fill (registration r module) (.key r ⟨module, field⟩) = .made k n := by
    simp only [registration, fill, fillRegistry, fillSpectest, and_self, if_true, hall _ hmem]
  have horigin := origin?_concat run (registration r module) (.key r ⟨module, field⟩)
  rw [hfill] at horigin
  exact ⟨registersAt_registration run r module [], _, horigin, rfl⟩

theorem fill_importing {s : Session} {r : String} {key : ExportKey}
    (hfind : (s.registry r).find? key = some item) (hkind : item.kind ≠ .constant) (name : String) :
    s.fill (importing r key item.kind name) (.name item.kind name) = .copied (.key r key) := by
  have hresolve : ((s.registry r).resolve key (some item.kind)).1 = .ok item := by
    rw [Registry.resolve_kind_of_some _ hfind, if_pos rfl]
  simp only [importing, fill, fillRegistry, hresolve]
  cases item with
  | constant v => exact absurd rfl hkind
  | _ => exact if_pos rfl

/-- An import of the right kind is a handle from the same registration, to the same object. -/
theorem fromRegistration_import {r : String} {key : ExportKey}
    (h : FromRegistration run i (.key r key)) :
    ∃ k, ∀ name, FromRegistration (run ++ [importing r key k name]) i (.name k name) ∧
      (reached (run ++ [importing r key k name])).itemAt (.name k name) =
        (reached run).itemAt (.key r key) := by
  obtain ⟨hregisters, c, horigin, hstep⟩ := h
  obtain ⟨item, hitem, hkind⟩ := exists_origin?_iff.mp ⟨c, horigin⟩
  refine ⟨item.kind, ?_⟩
  intro name
  obtain ⟨hcopy, hcopied⟩ := copied_concat (fill_importing hitem hkind name)
  exact ⟨⟨hregisters.append _, c, hcopied.trans horigin, hstep⟩, hcopy⟩

theorem fill_registration_of_ne {s : Session} {r module : String}
    (h : ∀ field ∈ Spectest.fields, p ≠ .key r ⟨module, field⟩) :
    s.fill (registration r module) p = .kept := by
  cases p with
  | name k n => rfl
  | key r' key =>
    simp only [registration, fill, fillRegistry, fillSpectest]
    split
    · rename_i heq
      obtain ⟨rfl, rfl⟩ := heq
      cases hlookup : Spectest.exports.lookup key.field with
      | none => rfl
      | some made =>
        have hfield : key.field ∈ Spectest.fields := by
          rw [← Spectest.fields_exports]
          exact List.mem_map.mpr ⟨_, Spectest.mem_exports_of_lookup hlookup, rfl⟩
        exact absurd rfl (h key.field hfield)
    · rfl

/-- What a registration does in a session. -/
structure Registers (run : List Act) (r module : String) : Prop where
  answer : ((reached run).step (.registry r (.spectest module))).result = .ok .done
  keys : ∀ field ∈ Spectest.fields,
    FromRegistration (run ++ [registration r module]) run.length (.key r ⟨module, field⟩)
  /-- Handles at all other places stay the same, imports under any name among them. -/
  others : ∀ p, (∀ field ∈ Spectest.fields, p ≠ .key r ⟨module, field⟩) →
    (reached (run ++ [registration r module])).itemAt p = (reached run).itemAt p ∧
      origin? (run ++ [registration r module]) p = origin? run p ∧
      (reached (run ++ [registration r module])).observe p = (reached run).observe p

theorem registers_registration (run : List Act) (r module : String) : Registers run r module where
  answer := by
    have hresult : ((reached run).step (.registry r (.spectest module))).result =
        (((Spectest.register (reached run).store ((reached run).registry r) module).result.map
          fun _ => Registry.Answer.done).mapError Failure.link).map
            (registryReply (reached run).store none) := rfl
    rw [hresult, Spectest.register_eq]
    rfl
  keys := by
    intro field hfield
    exact fromRegistration_key run r module hfield
  others := by
    intro p hp
    have hkept : (reached run).fill (registration r module) p = .kept := fill_registration_of_ne hp
    have horigin := origin?_concat run (registration r module) p
    rw [hkept] at horigin
    exact ⟨(observe_concat hkept).1, horigin, observe_of_idle rfl hkept⟩

/-- Handles from one registration, seen from another. -/
structure Apart (run : List Act) (i j : Nat) : Prop where
  distinct : ∀ p q, FromRegistration run i p → FromRegistration run j q →
    (reached run).itemAt p ≠ (reached run).itemAt q
  unseen : ∀ later, ConfinedRun run i later → ∀ p q, FromRegistration run j p →
    origin? (run ++ later) q = origin? run p →
      (reached (run ++ later)).observe q = (reached run).observe p

theorem apart_of_ne (run : List Act) (hij : i ≠ j) : Apart run i j where
  distinct := by
    intro p q hp hq heq
    have ⟨_, c, horigin, _⟩ := hp
    obtain ⟨item, hitem, _⟩ := exists_origin?_iff.mp ⟨c, horigin⟩
    exact hij ((hp.madeAt hitem).step_eq (hq.madeAt (heq.symm.trans hitem)))
  unseen := by
    intro later hlater p q hp hq
    exact observe_append_of_confined hlater hij hp hq

end

/-- A registration succeeds in every registry, makes its thirteen exports anew over whatever was
there, and leaves all else alone. In a session the handles imported from it are to its own objects,
and those imported before stay. Acts through handles from one registration, under whatever names and
in whatever registries, are not seen through handles from another. -/
theorem registrations_are_independent :
    (∀ s r module, (Registry.perform s r (.spectest module)).result = .ok .done ∧
      Spectest.Complete module s r (Registry.perform s r (.spectest module)).state.1
        (Registry.perform s r (.spectest module)).state.2) ∧
    (∀ run r module, Registers run r module) ∧
    (∀ run i r key, FromRegistration run i (.key r key) →
      ∃ k, ∀ name, FromRegistration (run ++ [importing r key k name]) i (.name k name) ∧
        (reached (run ++ [importing r key k name])).itemAt (.name k name) =
          (reached run).itemAt (.key r key)) ∧
    (∀ run i a, Through run i a → Confined run i a) ∧
    ∀ run i j, i ≠ j → Apart run i j := by
  refine ⟨?_, registers_registration, ?_, ?_, ?_⟩
  · intro s r module
    constructor
    · rw [Registry.perform, Outcome.map, Spectest.register_eq]
      rfl
    · rw [Registry.state_perform_spectest]
      exact Spectest.complete_register s r module
  · intro run i r key h
    exact fromRegistration_import h
  · intro run i a h
    exact confined_of_through h
  · intro run i j hij
    exact apart_of_ne run hij

/-- A memory is imported, the same name is registered again, and the new memory is imported too. -/
def registeredTwice : List Act :=
  [registration "main" "spectest", importing "main" ⟨"spectest", "memory"⟩ .memory "old",
    registration "main" "spectest", importing "main" ⟨"spectest", "memory"⟩ .memory "new"]

def storeInNew : Act := .command (.memory "new" (.perform (.store (.full .i32) 16 0 (.i32 7))))

/-- A store through the new import is not seen through the old one, which is another memory. -/
theorem store_in_new_unseen_in_old :
    (reached registeredTwice).itemAt (.name .memory "new") ≠
        (reached registeredTwice).itemAt (.name .memory "old") ∧
      (reached (registeredTwice ++ [storeInNew])).observe (.name .memory "old") =
        (reached registeredTwice).observe (.name .memory "old") := by
  have hnew : FromRegistration registeredTwice 2 (.name .memory "new") :=
    ⟨⟨"main", "spectest", rfl⟩, ⟨2, .memory, 0⟩, rfl, rfl⟩
  have hold : FromRegistration registeredTwice 0 (.name .memory "old") :=
    ⟨⟨"main", "spectest", rfl⟩, ⟨0, .memory, 0⟩, rfl, rfl⟩
  obtain ⟨_, _, _, hconfined, hapart⟩ := registrations_are_independent
  have hrun : ConfinedRun registeredTwice 2 [storeInNew] := by
    intro before a after hsplit
    cases before with
    | nil =>
      cases hsplit
      exact hconfined registeredTwice 2 storeInNew hnew
    | cons b before => simp at hsplit
  obtain ⟨hdistinct, hunseen⟩ := hapart registeredTwice 2 0 (by decide)
  exact ⟨hdistinct _ _ hnew hold, hunseen _ hrun _ _ hold rfl⟩

end Script
end WasmHost
