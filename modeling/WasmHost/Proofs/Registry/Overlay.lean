import Mathlib.Data.Set.Card
import WasmHost.Registry.Lemmas

/-!
# WasmHost.Proofs.Registry.Overlay

Laying one module's exports over another's. The exports are listed in whatever order the registry
hands them out and then defined one by one; `IsOverlay` says what must come of it, without an order.

* `isOverlay_of_perm`, `IsOverlay.unique`: every order of the list does it, with the same result.
* `overlay_shares_every_field_of_source`: for all names, the same twice or not; what a second
  call, a further one from the target, and later definitions do.
-/

namespace WasmHost
namespace Registry

/-- The fields that a module has. -/
def fieldSet (r : Registry) (module : String) : Set String :=
  {field | r.contains ⟨module, field⟩ = true}

/-- A registry `r'` that comes of `r` by giving `target` every field of `source`, and a count of
these fields. -/
structure IsOverlay (r : Registry) (target source : String) (r' : Registry) (count : Nat) :
    Prop where
  count_eq : (count : ℕ∞) = (r.fieldSet source).encard
  shared : ∀ field item, r.find? ⟨source, field⟩ = some item →
    r'.find? ⟨target, field⟩ = some item
  kept : ∀ field, r.find? ⟨source, field⟩ = none →
    r'.find? ⟨target, field⟩ = r.find? ⟨target, field⟩
  others : ∀ key, key.module ≠ target → r'.find? key = r.find? key

/-- A list of all fields of a module with their items, each field once. -/
structure Lists (r : Registry) (module : String) (fields : List (String × Extern)) : Prop where
  nodup : (fields.map Prod.fst).Nodup
  mem_iff : ∀ field item, (field, item) ∈ fields ↔ r.find? ⟨module, field⟩ = some item

section

variable {r : Registry} {source : String}

theorem lists_of_perm {fields : List (String × Extern)} (h : fields.Perm (r.fieldsOf source)) :
    Lists r source fields := by
  refine ⟨(h.map Prod.fst).nodup_iff.mpr (r.nodup_fieldsOf source), fun field item => ?_⟩
  rw [h.mem_iff]
  exact r.mem_fieldsOf_iff

theorem Lists.encard_eq {fields : List (String × Extern)} (h : Lists r source fields) :
    (fields.length : ℕ∞) = (r.fieldSet source).encard := by
  have hset : r.fieldSet source = ((fields.map Prod.fst).toFinset : Set String) := by
    ext field
    rw [List.coe_toFinset, Set.mem_ofPred_eq, fieldSet, Set.mem_ofPred_eq, contains_iff,
      List.mem_map]
    constructor
    · rintro ⟨item, hitem⟩
      exact ⟨(field, item), (h.mem_iff field item).mpr hitem, rfl⟩
    · rintro ⟨⟨_, item⟩, hmem, rfl⟩
      exact ⟨item, (h.mem_iff _ item).mp hmem⟩
  rw [hset, Set.encard_coe_eq_coe_finsetCard, List.toFinset_card_of_nodup h.nodup,
    List.length_map]

theorem Lists.isOverlay {fields : List (String × Extern)} (h : Lists r source fields)
    (target : String) : IsOverlay r target source (r.defineAll target fields) fields.length where
  count_eq := h.encard_eq
  shared := by
    intro field item hitem
    exact find?_defineAll_of_mem r h.nodup ((h.mem_iff field item).mpr hitem)
  kept := by
    intro field hnone
    refine find?_defineAll_of_not_mem r (fun hfield => ?_)
    obtain ⟨⟨name, item⟩, hmem, hname⟩ := List.mem_map.mp hfield
    have hitem := (h.mem_iff name item).mp hmem
    cases hname
    rw [hnone] at hitem
    cases hitem
  others := by
    intro key hkey
    exact find?_defineAll_of_module_ne r fields hkey

theorem isOverlay_of_perm {fields : List (String × Extern)}
    (h : fields.Perm (r.fieldsOf source)) (target : String) :
    IsOverlay r target source (r.defineAll target fields) fields.length :=
  (lists_of_perm h).isOverlay target

theorem isOverlay_overlay (r : Registry) (target source : String) :
    IsOverlay r target source (r.overlay target source).1 (r.overlay target source).2.1 :=
  isOverlay_of_perm (List.Perm.refl _) target

end

/-! ## What follows from the description alone -/

section

variable {r r' : Registry} {target source : String} {count : Nat}

theorem IsOverlay.source_kept (h : IsOverlay r target source r' count) {field : String}
    {item : Extern} (hitem : r.find? ⟨source, field⟩ = some item) :
    r'.find? ⟨source, field⟩ = some item := by
  by_cases hsame : source = target
  · subst hsame
    exact h.shared field item hitem
  · rw [h.others _ hsame]
    exact hitem

theorem IsOverlay.find?_self (h : IsOverlay r source source r' count) (key : ExportKey) :
    r'.find? key = r.find? key := by
  by_cases hkey : key.module = source
  · cases key with
    | mk module field =>
      cases hkey
      cases hitem : r.find? ⟨module, field⟩ with
      | none => rw [h.kept field hitem, hitem]
      | some item => exact h.shared field item hitem
  · exact h.others key hkey

/-- The source has the fields afterwards that it had before, whether or not it is the target. -/
theorem IsOverlay.find?_source (h : IsOverlay r target source r' count) (field : String) :
    r'.find? ⟨source, field⟩ = r.find? ⟨source, field⟩ := by
  by_cases hsame : source = target
  · subst hsame
    exact h.find?_self _
  · exact h.others _ hsame

theorem IsOverlay.fieldSet_source (h : IsOverlay r target source r' count) :
    r'.fieldSet source = r.fieldSet source := by
  ext field
  simp only [fieldSet, Set.mem_ofPred_eq, Directory.contains, h.find?_source]

/-- The description fixes the new registry and the count. -/
theorem IsOverlay.unique {r₁ r₂ : Registry} {n₁ n₂ : Nat} (h₁ : IsOverlay r target source r₁ n₁)
    (h₂ : IsOverlay r target source r₂ n₂) : n₁ = n₂ ∧ ∀ key, r₁.find? key = r₂.find? key := by
  constructor
  · have hcount := h₁.count_eq.trans h₂.count_eq.symm
    exact_mod_cast hcount
  · intro key
    by_cases hkey : key.module = target
    · cases key with
      | mk module field =>
        cases hkey
        cases hitem : r.find? ⟨source, field⟩ with
        | none => rw [h₁.kept field hitem, h₂.kept field hitem]
        | some item => rw [h₁.shared field item hitem, h₂.shared field item hitem]
    · rw [h₁.others key hkey, h₂.others key hkey]

theorem IsOverlay.again {r'' : Registry} {count' : Nat} (h : IsOverlay r target source r' count)
    (h' : IsOverlay r' target source r'' count') :
    count' = count ∧ ∀ key, r''.find? key = r'.find? key := by
  constructor
  · have hcount := h'.count_eq
    rw [h.fieldSet_source, ← h.count_eq] at hcount
    exact_mod_cast hcount
  · intro key
    by_cases hkey : key.module = target
    · cases key with
      | mk module field =>
        cases hkey
        cases hitem : r.find? ⟨source, field⟩ with
        | none => exact h'.kept field (by rw [h.find?_source, hitem])
        | some item =>
          rw [h.shared field item hitem]
          exact h'.shared field item (by rw [h.find?_source, hitem])
    · exact h'.others key hkey

end

/-- For every registry and any two names: `target` gets every field of `source` as the same item,
the count is their number, and all else stays, whatever order the fields are listed in; with one
name for both, everything stays. So a second call adds nothing and counts the same, a call from
`target` hands on every field of `source`, and what is defined under `source` later is seen under no
other name. -/
theorem overlay_shares_every_field_of_source (r : Registry) (target source : String) :
    IsOverlay r target source (r.overlay target source).1 (r.overlay target source).2.1 ∧
    (∀ fields, fields.Perm (r.fieldsOf source) → fields.length = (r.overlay target source).2.1 ∧
      ∀ key, (r.defineAll target fields).find? key = (r.overlay target source).1.find? key) ∧
    (∀ field item, r.find? ⟨source, field⟩ = some item →
      (r.overlay target source).1.find? ⟨source, field⟩ = some item) ∧
    (target = source → ∀ key, (r.overlay target source).1.find? key = r.find? key) ∧
    (((r.overlay target source).1.overlay target source).2.1 = (r.overlay target source).2.1 ∧
      ∀ key, ((r.overlay target source).1.overlay target source).1.find? key =
        (r.overlay target source).1.find? key) ∧
    (∀ third field item, r.find? ⟨source, field⟩ = some item →
      ((r.overlay target source).1.overlay third target).1.find? ⟨third, field⟩ = some item) ∧
    (∀ later key, key.module ≠ source →
      ((r.overlay target source).1.defineAll source later).find? key =
        (r.overlay target source).1.find? key) := by
  have hoverlay := isOverlay_overlay r target source
  refine ⟨hoverlay, ?_, ?_, ?_, ?_, ?_, ?_⟩
  · intro fields hperm
    exact (isOverlay_of_perm hperm target).unique hoverlay
  · intro field item hitem
    exact hoverlay.source_kept hitem
  · rintro rfl key
    exact hoverlay.find?_self key
  · exact hoverlay.again (isOverlay_overlay _ target source)
  · intro third field item hitem
    have hnext := isOverlay_overlay (r.overlay target source).1 third target
    exact hnext.shared field item (hoverlay.shared field item hitem)
  · intro later key hkey
    exact find?_defineAll_of_module_ne _ later hkey

end Registry
end WasmHost
