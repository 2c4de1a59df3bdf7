import WasmHost.Registry.Basic

/-!
# WasmHost.Registry.Lemmas

A registry seen from outside is its look-up function. Here is what definitions do to it, one by one
and many at once, and what a look-up for a kind answers.

* `find?_defineAll_of_mem`: of many definitions with distinct fields each is found, in any order.
* `mem_fieldsOf_iff`: the fields of a module are what is defined under its name.
-/

namespace WasmHost
namespace Registry

variable (r : Registry)

theorem find?_define (key key' : ExportKey) (item : Extern) :
    (r.define key item).1.find? key' = if key' = key then some item else r.find? key' :=
  Directory.find?_insert r key key' item

theorem contains_iff (key : ExportKey) :
    r.contains key = true ↔ ∃ item, r.find? key = some item :=
  Option.isSome_iff_exists

theorem resolve_of_none {key : ExportKey} (h : r.find? key = none) (kind? : Option ExternKind) :
    (r.resolve key kind?).1 = .error (.unknownImport key.module key.field) := by
  unfold resolve
  rw [h]

theorem resolve_any_of_some {key : ExportKey} {item : Extern} (h : r.find? key = some item) :
    (r.resolve key none).1 = .ok item := by
  unfold resolve
  rw [h]

theorem resolve_kind_of_some {key : ExportKey} {item : Extern} (h : r.find? key = some item)
    (kind : ExternKind) :
    (r.resolve key (some kind)).1 =
      if item.kind = kind then
        .ok item
      else
        .error (.kindMismatch key.module key.field kind item.kind) := by
  unfold resolve
  rw [h]
  by_cases hkind : item.kind = kind
  · simp [hkind]
  · simp [hkind]

theorem find?_of_resolve {key : ExportKey} {kind? : Option ExternKind} {item : Extern}
    (h : (r.resolve key kind?).1 = .ok item) : r.find? key = some item := by
  cases hfind : r.find? key with
  | none =>
    rw [resolve_of_none r hfind] at h
    cases h
  | some found =>
    cases kind? with
    | none =>
      rw [resolve_any_of_some r hfind] at h
      cases h
      rfl
    | some kind =>
      rw [resolve_kind_of_some r hfind] at h
      split at h
      · cases h
        rfl
      · cases h

/-! ## The fields of a module -/

theorem mem_fieldsOf_iff {module field : String} {item : Extern} :
    (field, item) ∈ r.fieldsOf module ↔ r.find? ⟨module, field⟩ = some item := by
  rw [← Directory.mem_entries_iff]
  simp only [fieldsOf, List.mem_filterMap, Option.ite_none_right_eq_some, Option.some.injEq,
    Prod.mk.injEq]
  constructor
  · rintro ⟨⟨key, item'⟩, hmem, rfl, rfl, rfl⟩
    exact hmem
  · intro hmem
    exact ⟨(⟨module, field⟩, item), hmem, rfl, rfl, rfl⟩

theorem nodup_fieldsOf (module : String) : ((r.fieldsOf module).map Prod.fst).Nodup := by
  have hkeys := r.nodup
  unfold List.Nodup at hkeys ⊢
  rw [List.pairwise_map] at hkeys ⊢
  refine hkeys.filterMap _ ?_
  -- two entries with one field in one module would be under one key
  rintro ⟨key, item⟩ ⟨key', item'⟩ hne ⟨field, _⟩ h ⟨field', _⟩ h' hfield
  simp only [Option.ite_none_right_eq_some, Option.some.injEq, Prod.mk.injEq] at h h'
  refine hne (?_ : key = key')
  cases key
  cases key'
  simp_all

/-! ## Many definitions -/

theorem find?_defineAll_of_module_ne {module : String} (fields : List (String × Extern))
    {key : ExportKey} (h : key.module ≠ module) :
    (r.defineAll module fields).find? key = r.find? key := by
  induction fields generalizing r with
  | nil => rfl
  | cons first rest ih =>
    have hkey : key ≠ ⟨module, first.1⟩ := fun hk => h (congrArg ExportKey.module hk)
    have hfirst := Directory.find?_insert r ⟨module, first.1⟩ key first.2
    rw [if_neg hkey] at hfirst
    exact (ih (r.insert ⟨module, first.1⟩ first.2)).trans hfirst

theorem find?_defineAll_of_not_mem {module field : String} {fields : List (String × Extern)}
    (h : field ∉ fields.map Prod.fst) :
    (r.defineAll module fields).find? ⟨module, field⟩ = r.find? ⟨module, field⟩ := by
  induction fields generalizing r with
  | nil => rfl
  | cons first rest ih =>
    rw [List.map_cons, List.mem_cons, not_or] at h
    have hkey : (⟨module, field⟩ : ExportKey) ≠ ⟨module, first.1⟩ :=
      fun hk => h.1 (congrArg ExportKey.field hk)
    have hfirst := Directory.find?_insert r ⟨module, first.1⟩ ⟨module, field⟩ first.2
    rw [if_neg hkey] at hfirst
    exact (ih (r.insert ⟨module, first.1⟩ first.2) h.2).trans hfirst

/-- No definition replaces another of the same list, so their order does not matter. -/
theorem find?_defineAll_of_mem {module field : String} {item : Extern}
    {fields : List (String × Extern)} (hnodup : (fields.map Prod.fst).Nodup)
    (h : (field, item) ∈ fields) :
    (r.defineAll module fields).find? ⟨module, field⟩ = some item := by
  induction fields generalizing r with
  | nil => cases h
  | cons first rest ih =>
    rw [List.map_cons, List.nodup_cons] at hnodup
    rcases List.mem_cons.mp h with rfl | hrest
    · have hfirst := Directory.find?_insert r ⟨module, field⟩ ⟨module, field⟩ item
      rw [if_pos rfl] at hfirst
      exact (find?_defineAll_of_not_mem _ hnodup.1).trans hfirst
    · exact ih (r.insert ⟨module, first.1⟩ first.2) hnodup.2 hrest

end Registry
end WasmHost
