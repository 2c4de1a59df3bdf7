import WasmHost.Proofs.Registry.Resolution

/-!
# WasmHost.Proofs.Registry.Log

The log of a registry tells what is in it. An observer who sees only levels, messages and fields,
and takes in only what is logged for debugging, knows after every call which keys there are and of
which kind each is. Items that come under a second module name are not logged one by one; the
observer copies what the log has told before.

* `after_record_exported`, `after_record_aliased`: what the observer makes of one event.
* `replayFrom_perform`: one operation.
* `replayFrom_run`: a run, by induction on it.
* `copied_perform`, `copied_run`: the counts of fields that were copied.
* `log_determines_registry`: all of it together, and what imports add to the log.
-/

namespace WasmHost

namespace Event

/-- What is seen of an event from outside. -/
structure Record where
  level : Level
  message : String
  fields : List (String × Field)
  deriving DecidableEq

def record (e : Event) : Record := ⟨e.level, e.message, e.fields⟩

namespace Record

def text? (r : Record) (name : String) : Option String :=
  match r.fields.lookup name with
  | some (.text s) => some s
  | _ => none

def number? (r : Record) (name : String) : Option Int :=
  match r.fields.lookup name with
  | some (.number n) => some n
  | _ => none

/-- One module was laid over another. -/
def IsAlias (r : Record) : Prop := r.level = .debug ∧ r.message = "registered module alias"

end Record

end Event

namespace Registry

open Event (Record)

/-- What an observer knows of a registry: its keys, and the kind of each. -/
abbrev Kinds := ExportKey → Option ExternKind

def kinds (r : Registry) : Kinds := fun key => (r.find? key).map Extern.kind

namespace Kinds

def empty : Kinds := fun _ => none

def define (known : Kinds) (key : ExportKey) (kind : ExternKind) : Kinds :=
  fun key' => if key' = key then some kind else known key'

/-- Every field of one module becomes one of another, which keeps its other fields. -/
def overlay (known : Kinds) (target source : String) : Kinds :=
  fun key =>
    if key.module = target then
      (known ⟨source, key.field⟩).or (known key)
    else
      known key

def fields (known : Kinds) (module : String) : Set String :=
  {field | (known ⟨module, field⟩).isSome = true}

/-- One record taken in. -/
def after (known : Kinds) (r : Record) : Kinds :=
  if r.message = "export" then
    match r.text? "module", r.text? "field", (r.text? "kind").bind ExternKind.ofName? with
    | some module, some field, some kind => known.define ⟨module, field⟩ kind
    | _, _, _ => known
  else if r.message = "registered module alias" then
    match r.text? "alias", r.text? "from" with
    | some target, some source => known.overlay target source
    | _, _ => known
  else
    known

/-- The records for debugging taken in one after the other. -/
def replayFrom (known : Kinds) (log : List Record) : Kinds :=
  (log.filter (·.level = .debug)).foldl after known

end Kinds

/-- What the log alone tells of a registry that had nothing in it at first. -/
def replay (log : List Record) : Kinds := Kinds.empty.replayFrom log

/-! ## Records -/

section

variable (known : Kinds)

theorem after_record_exported (module field : String) (kind : ExternKind) :
    known.after (Event.exported module field kind).record = known.define ⟨module, field⟩ kind := by
  simp [Kinds.after, Event.record, Event.message, Event.messageWith, Event.fields, Record.text?,
    List.lookup_cons, ExternKind.ofName?_name]

theorem after_record_aliased (target source : String) (count : Nat) :
    known.after (Event.aliased target source count).record = known.overlay target source := by
  simp [Kinds.after, Event.record, Event.message, Event.messageWith, Event.fields, Record.text?,
    List.lookup_cons]

theorem after_record_spectest (module : String) :
    known.after (Event.spectestRegistered module).record = known := by
  simp [Kinds.after, Event.record, Event.message, Event.messageWith]

theorem isAlias_record_iff (e : Event) :
    e.record.IsAlias ↔ ∃ target source count, e = .aliased target source count := by
  cases e <;> simp [Record.IsAlias, Event.record, Event.level, Event.message, Event.messageWith]

theorem replayFrom_append (log log' : List Record) :
    known.replayFrom (log ++ log') = (known.replayFrom log).replayFrom log' := by
  simp [Kinds.replayFrom]

/-- Debugging records are taken in, and all others are left out. -/
theorem replayFrom_cons (r : Record) (log : List Record) :
    known.replayFrom (r :: log) =
      (if r.level = .debug then known.after r else known).replayFrom log := by
  by_cases h : r.level = .debug <;> simp [Kinds.replayFrom, h]

end

/-! ## Definitions -/

section

variable (r : Registry)

theorem kinds_define (key : ExportKey) (item : Extern) :
    (r.define key item).1.kinds = r.kinds.define key item.kind := by
  funext key'
  rw [kinds, find?_define, Kinds.define]
  by_cases h : key' = key
  · rw [if_pos h, if_pos h]
    rfl
  · rw [if_neg h, if_neg h]
    rfl

theorem kinds_overlay (target source : String) :
    (r.overlay target source).1.kinds = r.kinds.overlay target source := by
  have hoverlay := isOverlay_overlay r target source
  funext ⟨module, field⟩
  simp only [kinds, Kinds.overlay]
  by_cases hmodule : module = target
  · subst hmodule
    rw [if_pos rfl]
    cases hitem : r.find? ⟨source, field⟩ with
    | none => rw [hoverlay.kept field hitem, Option.map_none, Option.none_or]
    | some item =>
      rw [hoverlay.shared field item hitem, Option.map_some, Option.some_or]
  · rw [if_neg hmodule, hoverlay.others _ hmodule]

theorem fields_kinds (module : String) : r.kinds.fields module = r.fieldSet module := by
  ext field
  simp [Kinds.fields, kinds, fieldSet, Directory.contains]

/-- Definitions that are logged one by one. -/
theorem replayFrom_exported (module : String) (fields : List (String × Extern)) :
    r.kinds.replayFrom
        (fields.map fun (field, item) => (Event.exported module field item.kind).record) =
      (r.defineAll module fields).kinds := by
  induction fields generalizing r with
  | nil => rfl
  | cons first rest ih =>
    have hfirst := kinds_define r ⟨module, first.1⟩ first.2
    rw [List.map_cons, replayFrom_cons, after_record_exported, ← hfirst]
    exact ih (r.define ⟨module, first.1⟩ first.2).1

end

/-! ## Runs -/

/-- The records that an operation adds to the log. -/
def records (s : Store) (r : Registry) (op : Op) : List Record :=
  (perform s r op).events.map Event.record

/-- What an observer sees of a run that starts with nothing defined. -/
def log (s : Store) (ops : List Op) : List Record :=
  (run s Directory.empty ops).2.2.map Event.record

section

variable (s : Store) (r : Registry)

theorem events_resolve (key : ExportKey) (kind? : Option ExternKind) :
    (r.resolve key kind?).2 =
      (r.kinds key).toList.map (Event.imported key.module key.field) := by
  unfold resolve kinds
  cases r.find? key with
  | none => rfl
  | some item =>
    cases kind? with
    | none => rfl
    | some kind => by_cases h : item.kind = kind <;> simp [h]

/-- A look-up that finds a key is logged, whatever kind was asked for. -/
theorem records_resolve (key : ExportKey) (kind? : Option ExternKind) :
    records s r (.resolve key kind?) =
      ((r.kinds key).toList.map (Event.imported key.module key.field)).map Event.record :=
  congrArg (List.map Event.record) (events_resolve r key kind?)

theorem records_spectest (module : String) :
    records s r (.spectest module) =
      ((Spectest.items s).map fun (field, item) =>
          (Event.exported module field item.kind).record) ++
        [(Event.spectestRegistered module).record] := by
  simp [records, perform, Outcome.map, Spectest.register_eq, Function.comp_def]

/-- What an operation does to a registry, an observer reads off what it logs. -/
theorem replayFrom_perform (op : Op) :
    r.kinds.replayFrom (records s r op) = (perform s r op).state.2.kinds := by
  cases op with
  | define key item =>
    have hrecords : records s r (.define key item) =
        [(Event.exported key.module key.field item.kind).record] := rfl
    rw [hrecords, replayFrom_cons, after_record_exported]
    exact (kinds_define r key item).symm
  | resolve key kind? =>
    rw [records_resolve]
    cases r.kinds key with
    | none => rfl
    | some kind => exact replayFrom_cons _ _ _
  | contains key => rfl
  | overlay target source =>
    have hrecords : records s r (.overlay target source) =
        [(Event.aliased target source (r.overlay target source).2.1).record] := rfl
    rw [hrecords, replayFrom_cons, after_record_aliased]
    exact (kinds_overlay r target source).symm
  | spectest module =>
    rw [records_spectest, replayFrom_append, replayFrom_exported, replayFrom_cons,
      after_record_spectest, ite_self, state_perform_spectest, Spectest.registry_register]
    rfl

theorem replayFrom_run (ops : List Op) :
    r.kinds.replayFrom ((run s r ops).2.2.map Event.record) = (run s r ops).2.1.kinds := by
  induction ops generalizing s r with
  | nil => rfl
  | cons op ops ih =>
    have hstep := replayFrom_perform s r op
    have hrest := ih (perform s r op).state.1 (perform s r op).state.2
    simp only [run, List.map_append, replayFrom_append]
    rw [← hrest, ← hstep]
    rfl

theorem events_run_append (before rest : List Op) :
    (run s r (before ++ rest)).2.2 =
      (run s r before).2.2 ++
        (run (run s r before).1 (run s r before).2.1 rest).2.2 := by
  induction before generalizing s r with
  | nil => rfl
  | cons op ops ih =>
    simp only [List.cons_append, run, List.append_assoc]
    rw [ih]

theorem replay_log (ops : List Op) : replay (log s ops) = (after s ops).2.kinds :=
  replayFrom_run s Directory.empty ops

end

/-! ## Counts -/

/-- Wherever one module was laid over another, the number of fields told is the number of those that
the log had told of before. -/
def Copied (known : Kinds) (log : List Record) : Prop :=
  ∀ before record rest, log = before ++ record :: rest → record.IsAlias →
    ∃ (source : String) (count : Nat),
      record.text? "from" = some source ∧ record.number? "count" = some (count : Int) ∧
      (count : ℕ∞) = ((known.replayFrom before).fields source).encard

section

variable {known : Kinds}

theorem Copied.of_events {events : List Event}
    (h : ∀ target source count, Event.aliased target source count ∉ events) :
    Copied known (events.map Event.record) := by
  intro before record rest heq halias
  obtain ⟨e, he, rfl⟩ : ∃ e ∈ events, e.record = record :=
    List.mem_map.mp (heq ▸ List.mem_append_right before List.mem_cons_self)
  obtain ⟨target, source, count, rfl⟩ := (isAlias_record_iff e).mp halias
  exact absurd he (h target source count)

theorem Copied.append {log log' : List Record} (h : Copied known log)
    (h' : Copied (known.replayFrom log) log') : Copied known (log ++ log') := by
  intro before record rest heq halias
  rcases List.append_eq_append_iff.mp heq.symm with ⟨tail, hlog, hrest⟩ | ⟨tail, hbefore, hlog'⟩
  · cases tail with
    | nil =>
      rw [List.append_nil] at hlog
      subst hlog
      exact h' [] record rest hrest.symm halias
    | cons first tail =>
      obtain ⟨rfl, rfl⟩ := List.cons.inj hrest
      exact h before record tail hlog halias
  · rw [hbefore, replayFrom_append]
    exact h' tail record rest hlog' halias

theorem copied_perform (s : Store) (r : Registry) (op : Op) :
    Copied r.kinds (records s r op) := by
  cases op with
  | define key item => exact Copied.of_events (by simp [perform, Registry.define])
  | resolve key kind? =>
    rw [records_resolve]
    exact Copied.of_events (by simp)
  | contains key => exact Copied.of_events (by simp [perform])
  | overlay target source =>
    intro before record rest heq _
    obtain ⟨rfl, hrest⟩ : before = [] ∧
        (Event.aliased target source (r.overlay target source).2.1).record = record := by
      cases before with
      | nil => exact ⟨rfl, (List.cons.inj heq).1⟩
      | cons first before => simp [records, perform, Registry.overlay] at heq
    subst hrest
    refine ⟨source, (r.overlay target source).2.1, rfl, rfl, ?_⟩
    rw [(isOverlay_overlay r target source).count_eq, ← fields_kinds]
    rfl
  | spectest module =>
    exact Copied.of_events (by simp [perform, Outcome.map, Spectest.register_eq])

theorem copied_run (s : Store) (r : Registry) (ops : List Op) :
    Copied r.kinds ((run s r ops).2.2.map Event.record) := by
  induction ops generalizing s r with
  | nil => exact Copied.of_events (by simp [run])
  | cons op ops ih =>
    have hrest := ih (perform s r op).state.1 (perform s r op).state.2
    rw [← replayFrom_perform] at hrest
    simp only [run, List.map_append]
    exact (copied_perform s r op).append hrest

end

/-- After every run of exports, of modules laid over others, of registrations of the test module and
of look-ups, on a registry with nothing in it: the debugging records tell its keys and the kind of
each, at every point of the run, and a record of a module laid over another tells how many fields
came with it. An import adds one record below that level, of the kind that is there, if the key is
there, also where another kind was asked for; look-ups that find nothing and mere questions add
none. -/
theorem log_determines_registry (s : Store) (ops : List Op) :
    (∀ before rest, ops = before ++ rest →
      log s before <+: log s ops ∧ replay (log s before) = (after s before).2.kinds) ∧
    (∀ before record rest, log s ops = before ++ record :: rest → record.IsAlias →
      ∃ (source : String) (count : Nat),
        record.text? "from" = some source ∧ record.number? "count" = some (count : Int) ∧
        (count : ℕ∞) = ((replay before).fields source).encard) ∧
    (∀ key kind?, records (after s ops).1 (after s ops).2 (.resolve key kind?) =
      (replay (log s ops) key).toList.map fun kind =>
        ⟨.trace, "import", [("module", .text key.module), ("field", .text key.field),
          ("kind", .text kind.name)]⟩) ∧
    (∀ key kind actual, replay (log s ops) key = some actual → actual ≠ kind →
      answer s ops (.resolve key (some kind)) =
        .error (.kindMismatch key.module key.field kind actual)) ∧
    (∀ key kind?, replay (log s ops) key = none →
      answer s ops (.resolve key kind?) = .error (.unknownImport key.module key.field)) ∧
    (∀ key, records (after s ops).1 (after s ops).2 (.contains key) = []) := by
  have hreplay := replay_log s ops
  refine ⟨?_, copied_run s Directory.empty ops, ?_, ?_, ?_, fun _ => rfl⟩
  · rintro before rest rfl
    refine ⟨?_, replay_log s before⟩
    unfold log
    rw [events_run_append, List.map_append]
    exact List.prefix_append _ _
  · intro key kind?
    rw [hreplay, records_resolve, List.map_map]
    rfl
  · intro key kind actual hactual hne
    rw [hreplay] at hactual
    obtain ⟨item, hitem, rfl⟩ := Option.map_eq_some_iff.mp hactual
    rw [answer_resolve, resolve_kind_of_some _ hitem, if_neg hne]
    rfl
  · intro key kind? hnone
    rw [hreplay] at hnone
    rw [answer_resolve, resolve_of_none _ (Option.map_eq_none_iff.mp hnone)]
    rfl

/-- A memory is exported, and its module then seen under a second name. -/
def seenTwice : List Op := [.define ⟨"env", "memory"⟩ (.memory ⟨0⟩), .overlay "lib" "env"]

/-- The second name is in the log only through the record of the module, and there the memory still
is no table. -/
theorem log_of_seenTwice :
    replay (log Store.empty seenTwice) ⟨"lib", "memory"⟩ = some .memory ∧
      answer Store.empty seenTwice (.resolve ⟨"lib", "memory"⟩ (some .table)) =
        .error (.kindMismatch "lib" "memory" .table .memory) ∧
      answer Store.empty seenTwice (.resolve ⟨"lib", "table"⟩ none) =
        .error (.unknownImport "lib" "table") := by
  obtain ⟨hreplay, _, _, hmismatch, hunknown, _⟩ := log_determines_registry Store.empty seenTwice
  have hkinds := (hreplay seenTwice [] (List.append_nil _).symm).2
  have hmemory : replay (log Store.empty seenTwice) ⟨"lib", "memory"⟩ = some .memory := by
    rw [hkinds]
    decide
  have hnone : replay (log Store.empty seenTwice) ⟨"lib", "table"⟩ = none := by
    rw [hkinds]
    decide
  exact ⟨hmemory, hmismatch _ .table _ hmemory (by decide), hunknown _ none hnone⟩

end Registry
end WasmHost
