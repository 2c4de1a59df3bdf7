import WasmHost.Proofs.Sharing.Frame
import WasmHost.Proofs.Sharing.Provenance

/-!
# WasmHost.Proofs.Sharing.Objects

Handles and the objects that they share, over every run.

* `itemAt_eq_iff`: two handles are the same object exactly if they trace back to one creation.
* `observe_of_operation`: what is done through one handle is seen through every handle to its object
  and through no other.
* `itemAt_append_of_untouched`: a handle stays what it is until its own place is filled.
* `handles_share_their_creation`: all of it together, for names of scripts and keys of registries.
-/

namespace WasmHost
namespace Script

open Session

/-- None of the later acts fills the place. -/
def Untouched (run later : List Act) (p : Place) : Prop :=
  ∀ before a after, later = before ++ a :: after → (reached (run ++ before)).fill a p = .kept

section

variable {run later : List Act} {a : Act} {p q : Place} {c : Creation} {item : Extern}

/-! ## One state -/

theorem of_origin?_eq_some (h : origin? run p = some c) :
    c.Of run ∧ (reached run).itemAt p = c.item? run := by
  have hexplained := explained run p
  unfold Explained at hexplained
  rw [h] at hexplained
  exact hexplained

theorem kind_of_origin?_eq_none (h : origin? run p = none)
    (hitem : (reached run).itemAt p = some item) : item.kind = .constant := by
  have hexplained := explained run p
  unfold Explained at hexplained
  rw [h] at hexplained
  exact hexplained item hitem

theorem exists_origin?_iff :
    (∃ c, origin? run p = some c) ↔
      ∃ item, (reached run).itemAt p = some item ∧ item.kind ≠ .constant := by
  constructor
  · intro h
    obtain ⟨c, hc⟩ := h
    obtain ⟨hof, hitem⟩ := of_origin?_eq_some hc
    obtain ⟨item, hmade⟩ := hof.exists_item
    refine ⟨item, hitem.trans hmade, ?_⟩
    rw [Creation.kind_of_item? hmade]
    exact hof.kind_ne_constant
  · intro h
    obtain ⟨item, hitem, hkind⟩ := h
    cases horigin : origin? run p with
    | none => exact absurd (kind_of_origin?_eq_none horigin hitem) hkind
    | some c => exact ⟨c, rfl⟩

theorem has_of_itemAt (h : (reached run).itemAt p = some item) : (reached run).store.Has item := by
  cases horigin : origin? run p with
  | none =>
    have hkind := kind_of_origin?_eq_none horigin h
    cases item with
    | constant v => trivial
    | _ => cases hkind
  | some c =>
    obtain ⟨hof, hitem⟩ := of_origin?_eq_some horigin
    exact hof.has (hitem.symm.trans h)

/-- A place traces back to a creation exactly if it holds the object that was made. -/
theorem origin?_eq_some_iff (hc : c.Of run) (hitem : c.item? run = some item) :
    origin? run p = some c ↔ (reached run).itemAt p = some item := by
  constructor
  · intro horigin
    exact (of_origin?_eq_some horigin).2.trans hitem
  · intro hplace
    have hkind : item.kind ≠ .constant := by
      rw [Creation.kind_of_item? hitem]
      exact hc.kind_ne_constant
    obtain ⟨d, horigin⟩ := exists_origin?_iff.mpr ⟨item, hplace, hkind⟩
    obtain ⟨hd, hmade⟩ := of_origin?_eq_some horigin
    rw [horigin, hd.eq_of_item?_eq hc (hmade.symm.trans (hplace.trans hitem.symm))]

/-- Two handles are the same object exactly if they trace back to the same creation. -/
theorem itemAt_eq_iff (h : origin? run p = some c) :
    (reached run).itemAt p = (reached run).itemAt q ↔ origin? run q = some c := by
  obtain ⟨hof, hmade⟩ := of_origin?_eq_some h
  obtain ⟨item, hitem, _⟩ := exists_origin?_iff.mp ⟨c, h⟩
  rw [origin?_eq_some_iff hof (hmade.symm.trans hitem), hitem, eq_comm]

theorem observe_eq_of_origin? (hp : origin? run p = some c) (hq : origin? run q = some c) :
    (reached run).observe p = (reached run).observe q := by
  unfold observe
  rw [(itemAt_eq_iff hp).mpr hq]

/-- Names of one kind stand for the same address exactly if they trace back to the same creation. -/
theorem find?_of_origin? {k : ExternKind} {n m : String} {d : Creation}
    (hn : origin? run (.name k n) = some c) (hm : origin? run (.name k m) = some d) :
    ∃ x y, (reached run).names.find? k n = some x ∧ (reached run).names.find? k m = some y ∧
      (x = y ↔ c = d) := by
  obtain ⟨item, hitem, _⟩ := exists_origin?_iff.mp ⟨c, hn⟩
  obtain ⟨item', hitem', _⟩ := exists_origin?_iff.mp ⟨d, hm⟩
  obtain ⟨x, hx, hxitem⟩ := Option.bind_eq_some_iff.mp hitem
  obtain ⟨y, hy, hyitem⟩ := Option.bind_eq_some_iff.mp hitem'
  have hsame := itemAt_eq_iff hn (q := .name k m)
  rw [hitem, hitem', hm] at hsame
  refine ⟨x, y, hx, hy, ?_, ?_⟩
  · intro hxy
    subst hxy
    have hd := hsame.mp (hxitem.symm.trans hyitem)
    cases hd
    rfl
  · intro hcd
    cases hsame.mpr (congrArg some hcd.symm)
    have hindex := (Extern.shared?_inj hxitem hyitem).2
    cases x
    cases y
    cases hindex
    rfl

/-- The command that compares two names tells whether they trace back to the same creation. -/
theorem result_same {k : ExternKind} {n m : String} {d : Creation}
    (hn : origin? run (.name k n) = some c) (hm : origin? run (.name k m) = some d) :
    ((reached run).step (.same k n m)).result = .ok (.flag (decide (c = d))) := by
  obtain ⟨x, y, hx, hy, hiff⟩ := find?_of_origin? hn hm
  simp only [step, sameStep, withFound_lookup, hx, hy]
  exact congrArg (fun b => Except.ok (Reply.flag b)) (decide_eq_decide.mpr hiff)

/-! ## Commands through two names of one object -/

section

variable {s : Session} {n m : String}

theorem memoryStep_congr {x : Addr .memory} (hn : s.names.find? .memory n = some x)
    (hm : s.names.find? .memory m = some x) {cmd : MemoryCommand}
    (hcmd : ∀ initial max, cmd ≠ .allocate initial max) :
    s.memoryStep n cmd = s.memoryStep m cmd := by
  cases cmd with
  | allocate initial max => exact absurd rfl (hcmd initial max)
  | _ => simp only [memoryStep, withFound_lookup, hn, hm]

theorem tableStep_congr {x : Addr .table} (hn : s.names.find? .table n = some x)
    (hm : s.names.find? .table m = some x) {cmd : TableCommand}
    (hcmd : ∀ length max, cmd ≠ .allocate length max) :
    s.tableStep n cmd = s.tableStep m cmd := by
  cases cmd with
  | allocate length max => exact absurd rfl (hcmd length max)
  | _ => simp only [tableStep, withFound_lookup, hn, hm]

theorem functionStep_congr {x : Addr .function} (hn : s.names.find? .function n = some x)
    (hm : s.names.find? .function m = some x) {cmd : FunctionCommand}
    (hcmd : ∀ shown body, cmd ≠ .make shown body) :
    s.functionStep n cmd = s.functionStep m cmd := by
  cases cmd with
  | make shown body => exact absurd rfl (hcmd shown body)
  | _ => simp only [functionStep, withFound_lookup, hn, hm]

theorem globalStep_congr {x : Addr .global} (hn : s.names.find? .global n = some x)
    (hm : s.names.find? .global m = some x) {cmd : GlobalCommand} (hcmd : ∀ v, cmd ≠ .make v) :
    s.globalStep n cmd = s.globalStep m cmd := by
  cases cmd with
  | make v => exact absurd rfl (hcmd v)
  | _ => simp only [globalStep, withFound_lookup, hn, hm]

end

/-! ## One act -/

theorem observe_concat (hkept : (reached run).fill a p = .kept) :
    (reached (run ++ [a])).itemAt p = (reached run).itemAt p ∧
      (reached (run ++ [a])).observe p =
        ((reached run).itemAt p).map ((reached run).act a).store.view := by
  have hdone := (reached run).done_fill p a
  rw [hkept] at hdone
  have hitem : (reached (run ++ [a])).itemAt p = (reached run).itemAt p := by
    rw [reached_concat]
    exact hdone
  refine ⟨hitem, ?_⟩
  unfold observe
  rw [hitem, reached_concat]

/-- A place that is filled with a copy holds what the other place held, with the same origin. -/
theorem copied_concat (hcopied : (reached run).fill a p = .copied q) :
    (reached (run ++ [a])).itemAt p = (reached run).itemAt q ∧
      origin? (run ++ [a]) p = origin? run q := by
  have hdone := (reached run).done_fill p a
  have horigin := origin?_concat run a p
  rw [hcopied] at hdone horigin
  rw [reached_concat]
  exact ⟨hdone, horigin⟩

/-- A place shows the same if its item was kept and shows the same. -/
theorem observe_concat_of_view (hkept : (reached run).fill a p = .kept)
    (hview : ∀ item, (reached run).itemAt p = some item →
      ((reached run).act a).store.view item = (reached run).store.view item) :
    (reached (run ++ [a])).observe p = (reached run).observe p := by
  rw [(observe_concat hkept).2]
  unfold observe
  cases hitem : (reached run).itemAt p with
  | none => rfl
  | some item => exact congrArg some (hview item hitem)

theorem exists_origin?_of_operation {h : Place} {e : Effect}
    (hwork : (reached run).work a = .operation h e) :
    ∃ c, origin? run h = some c ∧ (reached run).itemAt h = some e.target := by
  have hleaves := (reached run).leaves_act a
  rw [hwork] at hleaves
  obtain ⟨c, hc⟩ := exists_origin?_iff.mpr ⟨e.target, hleaves.1, e.kind_target_ne_constant⟩
  exact ⟨c, hc, hleaves.1⟩

/-- What is done through a handle is seen through every handle that traces back to the creation of
its object. -/
theorem observe_of_operation {h : Place} {e : Effect}
    (hwork : (reached run).work a = .operation h e) (hh : origin? run h = some c)
    (hp : origin? run p = some c) :
    (reached (run ++ [a])).observe p = ((reached run).observe p).map e.on := by
  obtain ⟨_, _, htarget⟩ := exists_origin?_of_operation hwork
  have hitem : (reached run).itemAt p = some e.target :=
    ((itemAt_eq_iff hp).mpr hh).trans htarget
  rw [(observe_concat (fill_of_work hwork (by simp) p)).2]
  unfold observe
  rw [hitem]
  simp only [Option.map_some, view_operation hwork (has_of_itemAt hitem), if_true]

/-- It is seen through no other handle and under no other key. -/
theorem observe_of_operation_other {h : Place} {e : Effect}
    (hwork : (reached run).work a = .operation h e) (hh : origin? run h = some c)
    (hp : origin? run p ≠ some c) :
    (reached (run ++ [a])).observe p = (reached run).observe p := by
  obtain ⟨_, _, htarget⟩ := exists_origin?_of_operation hwork
  refine observe_concat_of_view (fill_of_work hwork (by simp) p) (fun item hitem => ?_)
  have hne : item ≠ e.target := by
    intro heq
    refine hp ((itemAt_eq_iff hh).mp ?_)
    rw [htarget, hitem, heq]
  rw [view_operation hwork (has_of_itemAt hitem), if_neg hne]

theorem observe_of_call {f : Addr .function} (hwork : (reached run).work a = .call f) :
    ∃ es : List Effect, (∀ e ∈ es, (reached run).store.OperatesOn f e.target) ∧
      ∀ p item, (reached run).itemAt p = some item →
        (reached (run ++ [a])).observe p =
          some (Effect.onAll es item ((reached run).store.view item)) := by
  obtain ⟨es, hes, hview⟩ := view_call hwork
  refine ⟨es, hes, fun p item hitem => ?_⟩
  rw [(observe_concat (fill_of_work hwork (by simp) p)).2, hitem]
  exact congrArg some (hview item (has_of_itemAt hitem))

/-- A call changes nothing that its function does not operate on. -/
theorem observe_of_call_other {f : Addr .function} (hwork : (reached run).work a = .call f)
    (hp : ∀ item, (reached run).itemAt p = some item → ¬ (reached run).store.OperatesOn f item) :
    (reached (run ++ [a])).observe p = (reached run).observe p := by
  obtain ⟨es, hes, hview⟩ := view_call hwork
  refine observe_concat_of_view (fill_of_work hwork (by simp) p) (fun item hitem => ?_)
  have hne : ∀ e ∈ es, e.target ≠ item := by
    intro e he heq
    exact hp item hitem (heq ▸ hes e he)
  rw [hview item (has_of_itemAt hitem), Effect.onAll_of_forall_ne hne]

theorem observe_of_idle (hwork : (reached run).work a = .none)
    (hkept : (reached run).fill a p = .kept) :
    (reached (run ++ [a])).observe p = (reached run).observe p :=
  observe_concat_of_view hkept fun _ hitem => view_idle hwork (has_of_itemAt hitem)

/-! ## Runs -/

/-- What holds of every act of a run, told with the acts before it, holds of the last act and of
those before the last. -/
theorem forall_split_concat {P : List Act → Act → Prop}
    (h : ∀ before b after, later ++ [a] = before ++ b :: after → P before b) :
    (∀ before b after, later = before ++ b :: after → P before b) ∧ P later a := by
  constructor
  · intro before b after hsplit
    refine h before b (after ++ [a]) ?_
    rw [hsplit]
    simp
  · exact h later a [] (by simp)

theorem Untouched.of_concat (h : Untouched run (later ++ [a]) p) :
    Untouched run later p ∧ (reached (run ++ later)).fill a p = .kept := forall_split_concat h

/-- A handle stays what it is until its own place is filled. -/
theorem itemAt_append_of_untouched (h : Untouched run later p) :
    (reached (run ++ later)).itemAt p = (reached run).itemAt p ∧
      origin? (run ++ later) p = origin? run p := by
  induction later using List.reverseRecOn with
  | nil => simp
  | append_singleton later a ih =>
    obtain ⟨hlater, hkept⟩ := h.of_concat
    obtain ⟨hitem, horigin⟩ := ih hlater
    have hlast := origin?_concat (run ++ later) a p
    rw [hkept] at hlast
    rw [← List.append_assoc]
    exact ⟨(observe_concat hkept).1.trans hitem, hlast.trans horigin⟩

theorem untouched_key {r : String} (h : ∀ a ∈ later, a.writes? ≠ some r) (key : ExportKey) :
    Untouched run later (.key r key) := by
  intro before a after hsplit
  refine fill_key_of_writes_ne (h a ?_) key
  rw [hsplit]
  simp

theorem untouched_name (h : ∀ a ∈ later, a.writes? ≠ none) (k : ExternKind) (n : String) :
    Untouched run later (.name k n) := by
  intro before a after hsplit
  obtain ⟨r, hr⟩ := Option.ne_none_iff_exists'.mp (h a (by rw [hsplit]; simp))
  exact fill_name_of_writes hr k n

/-- No export, overlay or clone shows through a handle that has been imported. -/
theorem observe_append_of_writes (h : ∀ a ∈ later, a.writes? ≠ none) (k : ExternKind) (n : String) :
    (reached (run ++ later)).observe (.name k n) = (reached run).observe (.name k n) := by
  induction later using List.reverseRecOn with
  | nil => simp
  | append_singleton later a ih =>
    obtain ⟨r, hr⟩ := Option.ne_none_iff_exists'.mp (h a (by simp))
    rw [← List.append_assoc, observe_of_idle (work_of_writes hr) (fill_name_of_writes hr k n)]
    exact ih fun b hb => h b (List.mem_append_left _ hb)

/-- A cloned registry has the same objects under its keys, whatever is exported elsewhere later. -/
theorem itemAt_clone {r target : String} (h : ∀ a ∈ later, a.writes? ≠ some target)
    (key : ExportKey) :
    (reached (run ++ .command (.registry r (.copyTo target)) :: later)).itemAt (.key target key) =
        (reached run).itemAt (.key r key) ∧
      origin? (run ++ .command (.registry r (.copyTo target)) :: later) (.key target key) =
        origin? run (.key r key) := by
  have hfill : (reached run).fill (.command (.registry r (.copyTo target))) (.key target key) =
      .copied (.key r key) := if_pos rfl
  obtain ⟨hitem, horigin⟩ := copied_concat hfill
  have huntouched : Untouched (run ++ [.command (.registry r (.copyTo target))]) later
      (.key target key) := untouched_key h key
  have hlater := itemAt_append_of_untouched huntouched
  rw [List.append_cons]
  exact ⟨hlater.1.trans hitem, hlater.2.trans horigin⟩

/-! ## Functions -/

theorem function_append {f : Addr .function} (hf : (reached run).store.Has (.function f)) :
    (reached (run ++ later)).store.function f = (reached run).store.function f := by
  induction later using List.reverseRecOn with
  | nil => simp
  | append_singleton later a ih =>
    have hhas := has_reached_append hf later
    rw [← List.append_assoc, reached_concat]
    exact (View.function.inj (view_function hhas)).trans ih

theorem lookupBody_of_target {names : Names} {body : Body Name SignatureRef} {k : ExternKind}
    {n : Name k} {x : Addr k} (htarget : body.target? = some ⟨k, n⟩)
    (hfind : names.find? k n = some x) :
    ∃ made, names.lookupBody body = .ok made ∧ made.target? = some ⟨k, x⟩ := by
  cases body with
  | store memory kind =>
    cases htarget
    exact ⟨.store x kind, by simp [Names.lookupBody, Names.lookup, hfind, Except.map], rfl⟩
  | memoryGrow memory =>
    cases htarget
    exact ⟨.memoryGrow x, by simp [Names.lookupBody, Names.lookup, hfind, Except.map], rfl⟩
  | bump global =>
    cases htarget
    exact ⟨.bump x, by simp [Names.lookupBody, Names.lookup, hfind, Except.map], rfl⟩
  | _ => cases htarget

/-- A function operates on the object that the name in its body stood for when it was made, whatever
the name stands for later. -/
theorem operatesOn_of_make {name shown : String} {body : Body Name SignatureRef} {k : ExternKind}
    {n : String} (htarget : body.target? = some ⟨k, n⟩)
    (hitem : (reached run).itemAt (.name k n) = some item) :
    ∃ f, (reached (run ++ [.command (.function name (.make shown body))])).itemAt
          (.name .function name) = some (.function f) ∧
      ∀ later x, (reached (run ++ .command (.function name (.make shown body)) :: later)
        ).store.OperatesOn f x ↔ x = item := by
  obtain ⟨x, hx, hshared⟩ := Option.bind_eq_some_iff.mp hitem
  obtain ⟨made, hmade, hmadeTarget⟩ := lookupBody_of_target htarget hx
  have hact : (reached run).act (.command (.function name (.make shown body))) =
      ((reached run).withStore ((reached run).store.addFunction ⟨shown, made⟩).1).named .function
        name ((reached run).store.addFunction ⟨shown, made⟩).2 := by
    simp only [act, step, functionStep, hmade]
    rfl
  refine ⟨((reached run).store.addFunction ⟨shown, made⟩).2, ?_, fun later y => ?_⟩
  · rw [reached_concat, hact]
    exact (itemAt_named _ rfl name _).trans (if_pos rfl)
  · have hfunction : (reached (run ++ [.command (.function name (.make shown body))])
        ).store.function ((reached run).store.addFunction ⟨shown, made⟩).2 = ⟨shown, made⟩ := by
      rw [reached_concat, hact]
      simp [named, withStore, Store.addFunction, Store.function]
    have hhas : (reached (run ++ [.command (.function name (.make shown body))])).store.Has
        (.function ((reached run).store.addFunction ⟨shown, made⟩).2) := by
      rw [reached_concat, hact]
      simp [named, withStore, Store.addFunction, Store.Has, Store.count]
    rw [List.append_cons]
    refine Store.operatesOn_iff_of_target ?_ hshared
    rw [function_append hhas, hfunction]
    exact hmadeTarget

end

/-- What handles mean after a run. -/
structure HandlesShare (run : List Act) : Prop where
  /-- A handle traces back to a creation, and what traces back to none is no handle. -/
  traced : ∀ p, (∃ c, origin? run p = some c) ↔
    ∃ item, (reached run).itemAt p = some item ∧ item.kind ≠ .constant
  same_iff : ∀ p q c, origin? run p = some c →
    ((reached run).itemAt p = (reached run).itemAt q ↔ origin? run q = some c)
  told : ∀ k n m c d, origin? run (.name k n) = some c → origin? run (.name k m) = some d →
    ((reached run).step (.same k n m)).result = .ok (.flag (decide (c = d)))
  observed : ∀ p q c, origin? run p = some c → origin? run q = some c →
    (reached run).observe p = (reached run).observe q
  /-- A command answers and does the same through every name of an object. -/
  interchangeable : ∀ n m c,
    (origin? run (.name .memory n) = some c → origin? run (.name .memory m) = some c →
      ∀ cmd, (∀ initial max, cmd ≠ .allocate initial max) →
        (reached run).step (.memory n cmd) = (reached run).step (.memory m cmd)) ∧
    (origin? run (.name .table n) = some c → origin? run (.name .table m) = some c →
      ∀ cmd, (∀ length max, cmd ≠ .allocate length max) →
        (reached run).step (.table n cmd) = (reached run).step (.table m cmd)) ∧
    (origin? run (.name .function n) = some c → origin? run (.name .function m) = some c →
      ∀ cmd, (∀ shown body, cmd ≠ .make shown body) →
        (reached run).step (.function n cmd) = (reached run).step (.function m cmd)) ∧
    (origin? run (.name .global n) = some c → origin? run (.name .global m) = some c →
      ∀ cmd, (∀ v, cmd ≠ .make v) →
        (reached run).step (.global n cmd) = (reached run).step (.global m cmd))
  /-- An operation through a handle moves none. Every handle to the same object shows what it did,
  and no other handle and no other key does. -/
  operated : ∀ a h e, (reached run).work a = .operation h e →
    ∃ c, origin? run h = some c ∧ (reached run).itemAt h = some e.target ∧ ∀ p,
      (reached (run ++ [a])).itemAt p = (reached run).itemAt p ∧
      (origin? run p = some c →
        (reached (run ++ [a])).observe p = ((reached run).observe p).map e.on) ∧
      (origin? run p ≠ some c → (reached (run ++ [a])).observe p = (reached run).observe p)
  /-- A call does operations through the handles that its function holds. -/
  called : ∀ a f, (reached run).work a = .call f →
    (∃ es : List Effect, (∀ e ∈ es, (reached run).store.OperatesOn f e.target) ∧
      ∀ p, (reached (run ++ [a])).itemAt p = (reached run).itemAt p ∧
        ∀ item, (reached run).itemAt p = some item → (reached (run ++ [a])).observe p =
          some (Effect.onAll es item ((reached run).store.view item))) ∧
    ∀ p, (∀ item, (reached run).itemAt p = some item →
        ¬ (reached run).store.OperatesOn f item) →
      (reached (run ++ [a])).observe p = (reached run).observe p
  /-- A function holds the handle that a name in its body stood for when it was made. -/
  held : ∀ name shown body k n item, body.target? = some ⟨k, n⟩ →
    (reached run).itemAt (.name k n) = some item →
    ∃ f, (reached (run ++ [.command (.function name (.make shown body))])).itemAt
          (.name .function name) = some (.function f) ∧
      ∀ later x, (reached (run ++ .command (.function name (.make shown body)) :: later)
        ).store.OperatesOn f x ↔ x = item
  /-- Any other act changes no object that was there. -/
  idle : ∀ a p, (reached run).work a = .none → (reached run).fill a p = .kept →
    (reached (run ++ [a])).observe p = (reached run).observe p
  kept : ∀ later p, Untouched run later p →
    (reached (run ++ later)).itemAt p = (reached run).itemAt p ∧
      origin? (run ++ later) p = origin? run p
  /-- Handles at names stay what they are when keys are replaced. -/
  replaced : ∀ later, (∀ a ∈ later, a.writes? ≠ none) → ∀ k n,
    (reached (run ++ later)).itemAt (.name k n) = (reached run).itemAt (.name k n) ∧
      origin? (run ++ later) (.name k n) = origin? run (.name k n) ∧
      (reached (run ++ later)).observe (.name k n) = (reached run).observe (.name k n)
  /-- A cloned registry has the objects of the old one, but neither sees later changes of the
  other's keys. -/
  cloned : ∀ r target later, (∀ a ∈ later, a.writes? ≠ some target) → ∀ key,
    (reached (run ++ .command (.registry r (.copyTo target)) :: later)).itemAt
        (.key target key) = (reached run).itemAt (.key r key) ∧
      origin? (run ++ .command (.registry r (.copyTo target)) :: later) (.key target key) =
        origin? run (.key r key)
  original : ∀ r target later, target ≠ r → (∀ a ∈ later, a.writes? ≠ some r) → ∀ key,
    (reached (run ++ .command (.registry r (.copyTo target)) :: later)).itemAt (.key r key) =
        (reached run).itemAt (.key r key) ∧
      origin? (run ++ .command (.registry r (.copyTo target)) :: later) (.key r key) =
        origin? run (.key r key)

/-- For every run of acts that make objects, export, alias, replace, clone and import them, copy
handles and work through them in any order: handles are the same object exactly if they trace back
to the same creation, each sees what is done through the others, and nothing else does. -/
theorem handles_share_their_creation (run : List Act) : HandlesShare run where
  traced := fun _ => exists_origin?_iff
  same_iff := fun _ _ _ h => itemAt_eq_iff h
  told := fun _ _ _ _ _ hn hm => result_same hn hm
  observed := fun _ _ _ hp hq => observe_eq_of_origin? hp hq
  interchangeable := by
    intro n m c
    have hfind : ∀ {k : ExternKind}, origin? run (.name k n) = some c →
        origin? run (.name k m) = some c →
        ∃ x, (reached run).names.find? k n = some x ∧ (reached run).names.find? k m = some x := by
      intro k hn hm
      obtain ⟨x, y, hx, hy, hiff⟩ := find?_of_origin? hn hm
      exact ⟨x, hx, hiff.mpr rfl ▸ hy⟩
    refine ⟨?_, ?_, ?_, ?_⟩
    · intro hn hm cmd hcmd
      obtain ⟨x, hx, hy⟩ := hfind hn hm
      exact memoryStep_congr hx hy hcmd
    · intro hn hm cmd hcmd
      obtain ⟨x, hx, hy⟩ := hfind hn hm
      exact tableStep_congr hx hy hcmd
    · intro hn hm cmd hcmd
      obtain ⟨x, hx, hy⟩ := hfind hn hm
      exact functionStep_congr hx hy hcmd
    · intro hn hm cmd hcmd
      obtain ⟨x, hx, hy⟩ := hfind hn hm
      exact globalStep_congr hx hy hcmd
  operated := by
    intro a h e hwork
    obtain ⟨c, hc, htarget⟩ := exists_origin?_of_operation hwork
    refine ⟨c, hc, htarget, fun p => ⟨?_, ?_, ?_⟩⟩
    · exact (observe_concat (fill_of_work hwork (by simp) p)).1
    · exact observe_of_operation hwork hc
    · exact observe_of_operation_other hwork hc
  called := by
    intro a f hwork
    obtain ⟨es, hes, hobserve⟩ := observe_of_call hwork
    refine ⟨⟨es, hes, fun p => ⟨?_, hobserve p⟩⟩, fun p hp => ?_⟩
    · exact (observe_concat (fill_of_work hwork (by simp) p)).1
    · exact observe_of_call_other hwork hp
  held := fun _ _ _ _ _ _ htarget hitem => operatesOn_of_make htarget hitem
  idle := fun _ _ hwork hkept => observe_of_idle hwork hkept
  kept := fun _ _ h => itemAt_append_of_untouched h
  replaced := by
    intro later hlater k n
    obtain ⟨hitem, horigin⟩ := itemAt_append_of_untouched (untouched_name hlater k n)
    exact ⟨hitem, horigin, observe_append_of_writes hlater k n⟩
  cloned := fun _ _ _ hlater key => itemAt_clone hlater key
  original := by
    intro r target later hr hlater key
    refine itemAt_append_of_untouched (untouched_key ?_ key)
    intro a ha
    rcases List.mem_cons.mp ha with rfl | ha
    · simpa [Act.writes?] using hr
    · exact hlater a ha

/-- A script that makes a memory, exports it and imports it again under another name. -/
def memoryImported : List Act :=
  [.command (.memory "made" (.allocate 1 2)),
    .command (.registry "main" (.define "env" "memory" (.named .memory "made"))),
    .command (.registry "main" (.resolve "env" "memory" (some .memory) (some "imported")))]

/-- What is stored through the import is what the module that made the memory sees. -/
theorem store_through_import_seen :
    ((reached memoryImported).observe (.name .memory "made")).isSome ∧
    (reached (memoryImported ++ [.command (.memory "imported"
        (.perform (.store (.full .i32) 16 0 (.i32 7))))])).observe (.name .memory "made") =
      ((reached memoryImported).observe (.name .memory "made")).map
        (Effect.memory ⟨0⟩ (.store (.full .i32) 16 0 (.i32 7))).on := by
  obtain ⟨c, hc, _, hseen⟩ := (handles_share_their_creation memoryImported).operated
    (.command (.memory "imported" (.perform (.store (.full .i32) 16 0 (.i32 7)))))
    (.name .memory "imported") (.memory ⟨0⟩ (.store (.full .i32) 16 0 (.i32 7))) rfl
  exact ⟨rfl, (hseen (.name .memory "made")).2.1 hc⟩

end Script
end WasmHost
