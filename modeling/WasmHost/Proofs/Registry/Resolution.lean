import WasmHost.Proofs.Registry.Overlay
import WasmHost.Registry.Op
import WasmHost.Spectest.Lemmas

/-!
# WasmHost.Proofs.Registry.Resolution

What an import finds after any history of a registry. `Defines` says for each operation which pairs
of names it defines and as what; an import finds the item of the last step that defined its pair, of
whichever of the three kinds that step was.

* `find?_of_defines`, `find?_of_not_defines`: one operation.
* `find?_after_iff`: a run, by induction on it from its end.
* `import_finds_last_definition`: what each form of an import answers after a run.
-/

namespace WasmHost
namespace Registry

/-- An export defines its pair. Laying a module over another defines each field that the source has
at the time, and a registration of the test module its exports, as new objects. -/
inductive Defines (s : Store) (r : Registry) : Op → ExportKey → Extern → Prop
  | define (key : ExportKey) (item : Extern) : Defines s r (.define key item) key item
  | overlay {target source field : String} {item : Extern} :
      r.find? ⟨source, field⟩ = some item →
        Defines s r (.overlay target source) ⟨target, field⟩ item
  | spectest {module field : String} {k : ExternKind} {i : Nat} {item : Extern} :
      (field, k, i) ∈ Spectest.exports → s.fresh? k i = some item →
        Defines s r (.spectest module) ⟨module, field⟩ item

/-- The store and the registry after a run that starts with nothing defined. -/
def after (s : Store) (ops : List Op) : Store × Registry :=
  ((run s Directory.empty ops).1, (run s Directory.empty ops).2.1)

/-- What an operation answers after the run. -/
def answer (s : Store) (ops : List Op) (op : Op) : Except LinkError Answer :=
  (perform (after s ops).1 (after s ops).2 op).result

/-- Step `i` of the run defines the pair. -/
def DefinedAt (s : Store) (ops : List Op) (i : Nat) (key : ExportKey) (item : Extern) : Prop :=
  ∃ op, ops[i]? = some op ∧
    Defines (after s (ops.take i)).1 (after s (ops.take i)).2 op key item

/-- Of the steps that define the pair, the last defines it as this item. -/
def LastDefined (s : Store) (ops : List Op) (key : ExportKey) (item : Extern) : Prop :=
  ∃ i, DefinedAt s ops i key item ∧ ∀ j item', DefinedAt s ops j key item' → j ≤ i

/-! ## One operation -/

section

variable {s : Store} {r : Registry} {op : Op} {key : ExportKey}

theorem find?_of_defines {item : Extern} (h : Defines s r op key item) :
    (perform s r op).state.2.find? key = some item := by
  cases h with
  | define key item =>
    have hfind := r.find?_define key key item
    rw [if_pos rfl] at hfind
    exact hfind
  | overlay hitem => exact (isOverlay_overlay r _ _).shared _ _ hitem
  | spectest hmem hfresh =>
    rw [state_perform_spectest]
    exact Spectest.find?_register_of_mem (Spectest.mem_items_iff.mpr ⟨_, _, hmem, hfresh⟩)

theorem find?_of_not_defines (h : ∀ item, ¬ Defines s r op key item) :
    (perform s r op).state.2.find? key = r.find? key := by
  cases op with
  | resolve key' kind? => rfl
  | contains key' => rfl
  | define key' item =>
    have hkey : key ≠ key' := by
      rintro rfl
      exact h item (.define key item)
    have hfind := r.find?_define key' key item
    rw [if_neg hkey] at hfind
    exact hfind
  | overlay target source =>
    have hoverlay := isOverlay_overlay r target source
    by_cases hmodule : key.module = target
    · obtain ⟨module, field⟩ := key
      cases hmodule
      refine hoverlay.kept field ?_
      cases hitem : r.find? ⟨source, field⟩ with
      | none => rfl
      | some item => exact absurd (.overlay hitem) (h item)
    · exact hoverlay.others key hmodule
  | spectest module =>
    rw [state_perform_spectest]
    by_cases hmodule : key.module = module
    · obtain ⟨module', field⟩ := key
      cases hmodule
      refine Spectest.find?_register_of_not_mem ?_
      rw [← Spectest.fields_items s]
      intro hfield
      obtain ⟨⟨_, item⟩, hmem, rfl⟩ := List.mem_map.mp hfield
      obtain ⟨k, i, hexport, hfresh⟩ := Spectest.mem_items_iff.mp hmem
      exact h item (.spectest hexport hfresh)
    · exact Spectest.find?_register_of_module_ne hmodule

end

/-! ## Runs -/

section

variable {s : Store} {ops : List Op} {op : Op} {key : ExportKey} {item : Extern}

theorem run_concat (s : Store) (r : Registry) (ops : List Op) (op : Op) :
    ((run s r (ops ++ [op])).1, (run s r (ops ++ [op])).2.1) =
      (perform (run s r ops).1 (run s r ops).2.1 op).state := by
  induction ops generalizing s r with
  | nil => rfl
  | cons first rest ih => exact ih _ _

theorem after_concat (s : Store) (ops : List Op) (op : Op) :
    after s (ops ++ [op]) = (perform (after s ops).1 (after s ops).2 op).state :=
  run_concat s Directory.empty ops op

theorem definedAt_concat_iff {i : Nat} :
    DefinedAt s (ops ++ [op]) i key item ↔
      DefinedAt s ops i key item ∨
        i = ops.length ∧ Defines (after s ops).1 (after s ops).2 op key item := by
  unfold DefinedAt
  rcases Nat.lt_trichotomy i ops.length with hlt | rfl | hgt
  · rw [List.getElem?_append_left hlt, List.take_append_of_le_length (Nat.le_of_lt hlt)]
    simp [Nat.ne_of_lt hlt]
  · simp
  · simp [Nat.le_of_lt hgt, Nat.ne_of_gt hgt, List.getElem?_eq_none,
      Nat.succ_le_of_lt hgt]

theorem lastDefined_concat_of_defines
    (h : Defines (after s ops).1 (after s ops).2 op key item) :
    LastDefined s (ops ++ [op]) key item := by
  refine ⟨ops.length, definedAt_concat_iff.mpr (.inr ⟨rfl, h⟩), ?_⟩
  rintro j item' ⟨_, hop, _⟩
  have hj := (List.getElem?_eq_some_iff.mp hop).1
  rw [List.length_append, List.length_singleton] at hj
  omega

theorem lastDefined_concat_of_not_defines
    (h : ∀ item', ¬ Defines (after s ops).1 (after s ops).2 op key item') :
    LastDefined s (ops ++ [op]) key item ↔ LastDefined s ops key item := by
  have hiff : ∀ j item', DefinedAt s (ops ++ [op]) j key item' ↔ DefinedAt s ops j key item' := by
    intro j item'
    rw [definedAt_concat_iff]
    simp [h item']
  simp only [LastDefined, hiff]

theorem find?_after_iff :
    (after s ops).2.find? key = some item ↔ LastDefined s ops key item := by
  induction ops using List.reverseRecOn with
  | nil =>
    constructor
    · intro h
      cases h
    · rintro ⟨i, ⟨op, hop, _⟩, _⟩
      cases hop
  | append_singleton ops op ih =>
    rw [after_concat]
    by_cases h : ∃ item', Defines (after s ops).1 (after s ops).2 op key item'
    · obtain ⟨item', hdefines⟩ := h
      rw [find?_of_defines hdefines]
      constructor
      · intro heq
        cases heq
        exact lastDefined_concat_of_defines hdefines
      · rintro ⟨i, hi, hlast⟩
        -- the last definition is no earlier than that of `op`, so it is that of `op`
        have hle := hlast _ _ (definedAt_concat_iff.mpr (.inr ⟨rfl, hdefines⟩))
        rcases definedAt_concat_iff.mp hi with ⟨_, hop, _⟩ | ⟨_, hitem⟩
        · have hlt := (List.getElem?_eq_some_iff.mp hop).1
          omega
        · rw [← find?_of_defines hdefines, find?_of_defines hitem]
    · have hnone : ∀ item', ¬ Defines (after s ops).1 (after s ops).2 op key item' := by
        intro item' hitem
        exact h ⟨item', hitem⟩
      rw [find?_of_not_defines hnone, lastDefined_concat_of_not_defines hnone]
      exact ih

theorem exists_lastDefined_iff :
    (∃ item, LastDefined s ops key item) ↔ ∃ i item, DefinedAt s ops i key item := by
  constructor
  · rintro ⟨item, i, hi, _⟩
    exact ⟨i, item, hi⟩
  · intro h
    induction ops using List.reverseRecOn with
    | nil =>
      obtain ⟨i, item, op, hop, _⟩ := h
      cases hop
    | append_singleton ops op ih =>
      by_cases hop : ∃ item, Defines (after s ops).1 (after s ops).2 op key item
      · obtain ⟨item, hitem⟩ := hop
        exact ⟨item, lastDefined_concat_of_defines hitem⟩
      · obtain ⟨i, item, hi⟩ := h
        rcases definedAt_concat_iff.mp hi with hi | ⟨_, hitem⟩
        · obtain ⟨item', hlast⟩ := ih ⟨i, item, hi⟩
          refine ⟨item', (lastDefined_concat_of_not_defines ?_).mpr hlast⟩
          intro item'' hitem
          exact hop ⟨item'', hitem⟩
        · exact absurd ⟨item, hitem⟩ hop

theorem find?_after_eq_none_iff :
    (after s ops).2.find? key = none ↔ ¬ ∃ i item, DefinedAt s ops i key item := by
  rw [← exists_lastDefined_iff, Option.eq_none_iff_forall_ne_some]
  simp [find?_after_iff]

end

/-! ## Imports -/

section

variable {s : Store} {ops : List Op} {key : ExportKey}

theorem answer_resolve (s : Store) (ops : List Op) (key : ExportKey) (kind? : Option ExternKind) :
    answer s ops (.resolve key kind?) = ((after s ops).2.resolve key kind?).1.map .item := rfl

theorem answer_of_undefined (h : ¬ ∃ i item, DefinedAt s ops i key item)
    (kind? : Option ExternKind) :
    answer s ops (.resolve key kind?) = .error (.unknownImport key.module key.field) := by
  rw [answer_resolve, resolve_of_none _ (find?_after_eq_none_iff.mpr h)]
  rfl

theorem answer_any_of_lastDefined {item : Extern} (h : LastDefined s ops key item) :
    answer s ops (.resolve key none) = .ok (.item item) := by
  rw [answer_resolve, resolve_any_of_some _ (find?_after_iff.mpr h)]
  rfl

theorem answer_kind_of_lastDefined {item : Extern} (h : LastDefined s ops key item)
    (kind : ExternKind) :
    answer s ops (.resolve key (some kind)) =
      if item.kind = kind then
        .ok (.item item)
      else
        .error (.kindMismatch key.module key.field kind item.kind) := by
  rw [answer_resolve, resolve_kind_of_some _ (find?_after_iff.mpr h)]
  by_cases hkind : item.kind = kind
  · rw [if_pos hkind, if_pos hkind]
    rfl
  · rw [if_neg hkind, if_neg hkind]
    rfl

theorem answer_contains (s : Store) (ops : List Op) (key : ExportKey) :
    answer s ops (.contains key) = .ok (.flag ((after s ops).2.contains key)) := rfl

theorem contains_after_iff :
    (after s ops).2.contains key = true ↔ ∃ i item, DefinedAt s ops i key item := by
  rw [contains_iff, ← exists_lastDefined_iff]
  simp only [find?_after_iff]

/-- Every import after a run is decided by the last step that defined its pair or by there being
none. -/
theorem defined_or_undefined (s : Store) (ops : List Op) (key : ExportKey) :
    (∃ item, LastDefined s ops key item) ∨ ¬ ∃ i item, DefinedAt s ops i key item := by
  rw [exists_lastDefined_iff]
  exact Classical.em _

theorem answer_any_iff {item : Extern} :
    answer s ops (.resolve key none) = .ok (.item item) ↔ LastDefined s ops key item := by
  constructor
  · intro h
    rcases defined_or_undefined s ops key with ⟨item', hlast⟩ | hnone
    · rw [answer_any_of_lastDefined hlast] at h
      cases h
      exact hlast
    · rw [answer_of_undefined hnone] at h
      cases h
  · exact answer_any_of_lastDefined

theorem answer_kind_iff {kind : ExternKind} {item : Extern} :
    answer s ops (.resolve key (some kind)) = .ok (.item item) ↔
      LastDefined s ops key item ∧ item.kind = kind := by
  constructor
  · intro h
    rcases defined_or_undefined s ops key with ⟨item', hlast⟩ | hnone
    · rw [answer_kind_of_lastDefined hlast] at h
      split at h
      · rename_i hkind
        cases h
        exact ⟨hlast, hkind⟩
      · cases h
    · rw [answer_of_undefined hnone] at h
      cases h
  · rintro ⟨hlast, hkind⟩
    rw [answer_kind_of_lastDefined hlast, if_pos hkind]

theorem answer_unknown_iff {kind? : Option ExternKind} :
    answer s ops (.resolve key kind?) = .error (.unknownImport key.module key.field) ↔
      ¬ ∃ i item, DefinedAt s ops i key item := by
  constructor
  · intro h
    rcases defined_or_undefined s ops key with ⟨item, hlast⟩ | hnone
    · cases kind? with
      | none =>
        rw [answer_any_of_lastDefined hlast] at h
        cases h
      | some kind =>
        rw [answer_kind_of_lastDefined hlast] at h
        split at h
        · cases h
        · cases h
    · exact hnone
  · intro hnone
    exact answer_of_undefined hnone kind?

/-- An export under another pair changes no import of this one, though the two names of the pairs
may read the same when joined. -/
theorem answer_concat_define {other : ExportKey} (h : key ≠ other) (item : Extern)
    (kind? : Option ExternKind) :
    answer s (ops ++ [.define other item]) (.resolve key kind?) =
      answer s ops (.resolve key kind?) := by
  have hfind : (after s (ops ++ [.define other item])).2.find? key = (after s ops).2.find? key := by
    rw [after_concat]
    refine find?_of_not_defines ?_
    rintro item' hitem
    cases hitem
    exact h rfl
  rw [answer_resolve, answer_resolve]
  simp only [resolve, hfind]

end

/-- After any history of exports, of modules laid over others and of registrations of the test
module, with imports anywhere between: a pair of names is there exactly if some step defined it, and
then an import finds the item of the last step that did. An import of a kind finds it if that is its
kind and is told the two kinds if not; where no step defined the pair, every import is told so.
Pairs are compared name by name, and an import leaves the registry as it is. -/
theorem import_finds_last_definition (s : Store) (ops : List Op) (key : ExportKey) :
    (answer s ops (.contains key) = .ok (.flag true) ↔ ∃ i item, DefinedAt s ops i key item) ∧
    (answer s ops (.contains key) = .ok (.flag false) ↔ ¬ ∃ i item, DefinedAt s ops i key item) ∧
    ((∃ item, answer s ops (.resolve key none) = .ok (.item item)) ↔
      ∃ i item, DefinedAt s ops i key item) ∧
    (∀ item, answer s ops (.resolve key none) = .ok (.item item) ↔ LastDefined s ops key item) ∧
    (∀ kind item, answer s ops (.resolve key (some kind)) = .ok (.item item) ↔
      LastDefined s ops key item ∧ item.kind = kind) ∧
    (∀ kind?, answer s ops (.resolve key kind?) =
        .error (.unknownImport key.module key.field) ↔
      ¬ ∃ i item, DefinedAt s ops i key item) ∧
    (∀ kind item, LastDefined s ops key item → item.kind ≠ kind →
      answer s ops (.resolve key (some kind)) =
        .error (.kindMismatch key.module key.field kind item.kind)) ∧
    (∀ v, LastDefined s ops key (.constant v) → answer s ops (.resolve key (some .global)) =
      .error (.kindMismatch key.module key.field .global .constant)) ∧
    (∀ a, LastDefined s ops key (.global a) → answer s ops (.resolve key (some .constant)) =
      .error (.kindMismatch key.module key.field .constant .global)) ∧
    (∀ module field item kind?, key.module ≠ module ∨ key.field ≠ field →
      answer s (ops ++ [.define ⟨module, field⟩ item]) (.resolve key kind?) =
        answer s ops (.resolve key kind?)) ∧
    (∀ kind?, (perform (after s ops).1 (after s ops).2 (.resolve key kind?)).state =
      after s ops) := by
  have hmismatch : ∀ kind item, LastDefined s ops key item → item.kind ≠ kind →
      answer s ops (.resolve key (some kind)) =
        .error (.kindMismatch key.module key.field kind item.kind) := by
    intro kind item hlast hkind
    rw [answer_kind_of_lastDefined hlast, if_neg hkind]
  refine ⟨?_, ?_, ?_, fun _ => answer_any_iff, fun _ _ => answer_kind_iff,
    fun _ => answer_unknown_iff, hmismatch, ?_, ?_, ?_, fun _ => rfl⟩
  · rw [answer_contains, ← contains_after_iff]
    simp
  · rw [answer_contains, ← contains_after_iff]
    simp
  · rw [← exists_lastDefined_iff]
    simp only [answer_any_iff]
  · intro v hlast
    exact hmismatch .global (.constant v) hlast (by simp [Extern.kind])
  · intro a hlast
    exact hmismatch .constant (.global a) hlast (by simp [Extern.kind])
  · intro module field item kind? hne
    refine answer_concat_define ?_ item kind?
    rintro rfl
    rcases hne with hne | hne
    · exact hne rfl
    · exact hne rfl

end Registry
end WasmHost
