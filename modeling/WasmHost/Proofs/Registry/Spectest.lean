import WasmHost.Call
import WasmHost.Proofs.Binary.Whole
import WasmHost.Proofs.Text.Float
import WasmHost.Registry.Op
import WasmHost.Spectest.Lemmas

/-!
# WasmHost.Proofs.Registry.Spectest

What a registration of the test module leaves, in any registry and over any earlier definitions.
What was under its keys before does not matter, and what is under others stays.

* `new_of_mem_exports`: each export is an object that no address stood for before.
* `eq_of_item_eq`: no two exports share one.
* `complete_register`: the seven functions, the table, the memory and the four globals.
-/

namespace WasmHost

/-- The number that a value stands for, an integer with its sign. -/
def Value.number : Value → ℚ
  | .i32 x => x.toInt
  | .i64 x => x.toInt
  | .f32 x => x.value
  | .f64 x => x.value

theorem Binary.value_ofInt {e m : Nat} {n : Int} (he : 1 < e) (h : IsFloat e m n) :
    (ofInt e m n).value = n := by
  have hone : ((one e m : Nat) : ℚ) ≠ 0 := Nat.cast_ne_zero.mpr (Nat.two_pow_pos _).ne'
  rw [value, scaled_ofInt he h]
  push_cast
  exact mul_div_cancel_right₀ _ hone

namespace Spectest

def fields : List String :=
  ["print", "print_i32", "print_i64", "print_f32", "print_f64", "print_i32_f32", "print_f64_f64",
    "table", "memory", "global_i32", "global_i64", "global_f32", "global_f64"]

/-- The key holds an object that was made between two states of a store. -/
structure Makes (s s' : Store) (r : Registry) (key : ExportKey) (item : Extern) : Prop where
  found : r.find? key = some item
  new : ¬ s.Has item
  made : s'.Has item

/-- All that a registration leaves. -/
structure Complete (module : String) (s : Store) (r : Registry) (s' : Store) (r' : Registry) :
    Prop where
  prints : ∀ field ∈ printFields, ∃ f, Makes s s' r' ⟨module, field⟩ (.function f) ∧
    (s'.function f).name = module ++ "." ++ field ∧
    ∀ args, s'.call f args = ⟨s', .ok [], [.printed field args]⟩
  table : ∃ a, Makes s s' r' ⟨module, "table"⟩ (.table a) ∧
    s'.table a = ⟨Array.replicate 10 none, 20⟩
  memory : ∃ a, Makes s s' r' ⟨module, "memory"⟩ (.memory a) ∧
    s'.memory a = ⟨⟨Array.replicate 65536 0⟩, 2⟩
  globals : ∀ t : ValType, ∃ a, Makes s s' r' ⟨module, "global_" ++ t.name⟩ (.global a) ∧
    (s'.global a).typ = t ∧ (s'.global a).number = 666
  distinct : ∀ field ∈ fields, ∀ field' ∈ fields,
    r'.find? ⟨module, field⟩ = r'.find? ⟨module, field'⟩ → field = field'
  others : ∀ key : ExportKey, (∀ field ∈ fields, key ≠ ⟨module, field⟩) →
    r'.find? key = r.find? key
  old : s.Extends s'

/-! ## The objects -/

theorem fields_exports : exports.map Prod.fst = fields := by decide

theorem mem_exports_of_mem_fields {field : String} (h : field ∈ fields) :
    ∃ k i, (field, k, i) ∈ exports := by
  rw [← fields_exports] at h
  obtain ⟨⟨_, k, i⟩, hmem, rfl⟩ := List.mem_map.mp h
  exact ⟨k, i, hmem⟩

theorem mem_exports_of_printFields {field : String} {i : Nat} (h : printFields[i]? = some field) :
    (field, ExternKind.function, i) ∈ exports := by
  refine List.mem_append_left _ (List.mem_append_left _ (List.mem_map.mpr ⟨(field, i), ?_, rfl⟩))
  exact List.mk_mem_zipIdx_iff_getElem?.mpr h

section

variable (s : Store) (r : Registry) (module : String) {field : String} {k : ExternKind} {i : Nat}
  {item : Extern}

theorem new_of_mem_exports (h : (field, k, i) ∈ exports) (hitem : s.fresh? k i = some item) :
    Makes s (register s r module).state.1 (register s r module).state.2 ⟨module, field⟩ item := by
  have hplace := place_lt_of_mem_exports h
  refine ⟨find?_register_of_mem (mem_items_iff.mpr ⟨k, i, h, hitem⟩), ?_, ?_⟩
  · rw [Store.has_of_shared?_eq hitem]
    exact Nat.not_lt.mpr (Nat.le_add_right _ _)
  · rw [Store.has_of_shared?_eq hitem, count_register]
    exact Nat.add_lt_add_left hplace _

theorem eq_of_item_eq {field' : String} {k' : ExternKind} {i' : Nat}
    (h : (field, k, i) ∈ exports) (h' : (field', k', i') ∈ exports)
    (hitem : s.fresh? k i = some item) (hitem' : s.fresh? k' i' = some item) : field = field' := by
  obtain ⟨rfl, hindex⟩ := Extern.shared?_inj hitem hitem'
  obtain rfl : i = i' := Nat.add_left_cancel hindex
  have hall : ∀ e ∈ exports, ∀ e' ∈ exports, e.2 = e'.2 → e.1 = e'.1 := by decide
  exact hall _ h _ h' rfl

theorem getElem?_append_map {α β : Type} (old : Array β) (f : α → β) (l : List α) (i : Nat) :
    (old ++ (l.map f).toArray)[old.size + i]? = l[i]?.map f := by
  rw [Array.getElem?_append_right (Nat.le_add_right _ _)]
  simp

theorem function_register (h : printFields[i]? = some field) :
    (register s r module).state.1.function ⟨s.functions.size + i⟩ =
      ⟨module ++ "." ++ field, .print field⟩ := by
  rw [store_register]
  simp only [Store.function, getElem?_append_map, h]
  rfl

theorem global_register {t : ValType} (h : ValType.all[i]? = some t) :
    (register s r module).state.1.global ⟨s.globals.size + i⟩ = globalValue t := by
  rw [store_register]
  simp only [Store.global, getElem?_append_map, h]
  rfl

end

theorem typ_globalValue (t : ValType) : (globalValue t).typ = t := by cases t <;> rfl

/-- Both float formats have room for the number, so none of the four is rounded. -/
theorem number_globalValue (t : ValType) : (globalValue t).number = 666 := by
  have hnumber : (globalNumber : Int).natAbs < 2 ^ 10 := by decide
  cases t with
  | i32 => rfl
  | i64 => rfl
  | f32 =>
    have hfloat : Binary.IsFloat 8 23 globalNumber :=
      Binary.isFloat_of_natAbs_lt hnumber (by decide) (by decide)
    exact Binary.value_ofInt (by decide) hfloat
  | f64 =>
    have hfloat : Binary.IsFloat 11 52 globalNumber :=
      Binary.isFloat_of_natAbs_lt hnumber (by decide) (by decide)
    exact Binary.value_ofInt (by decide) hfloat

/-- A print function only prints. -/
theorem call_of_print {s : Store} {f : Addr .function} {name field : String}
    (h : s.function f = ⟨name, .print field⟩) (args : Args) :
    s.call f args = ⟨s, .ok [], [.printed field args]⟩ := by
  obtain ⟨depth, hdepth⟩ := Nat.exists_eq_add_one_of_ne_zero (s.depthLimit_pos args).ne'
  simp only [Store.call, hdepth, Store.callWithin, h]

/-! ## The registration -/

theorem complete_register (s : Store) (r : Registry) (module : String) :
    Complete module s r (register s r module).state.1 (register s r module).state.2 where
  prints := by
    intro field hfield
    obtain ⟨i, hi⟩ := List.mem_iff_getElem?.mp hfield
    have hmem := mem_exports_of_printFields hi
    have hfunction := function_register s r module hi
    refine ⟨_, new_of_mem_exports s r module hmem rfl, ?_, ?_⟩
    · exact congrArg HostFunction.name hfunction
    · exact call_of_print hfunction
  table := by
    refine ⟨_, new_of_mem_exports s r module (k := .table) (i := 0) (by decide) rfl, ?_⟩
    rw [store_register]
    simp [Store.table, Store.count, Table.empty, tableLength, tableMax]
  memory := by
    refine ⟨_, new_of_mem_exports s r module (k := .memory) (i := 0) (by decide) rfl, ?_⟩
    rw [store_register]
    simp [Store.memory, Store.count, Memory.zeroed, Memory.zeros, memoryPages, memoryMax,
      Memory.pageSize]
  globals := by
    intro t
    have ht : t ∈ ValType.all := by cases t <;> decide
    obtain ⟨i, hi⟩ := List.mem_iff_getElem?.mp ht
    have hmem : ("global_" ++ t.name, ExternKind.global, i) ∈ exports := by
      refine List.mem_append_right _ (List.mem_map.mpr ⟨(t, i), ?_, rfl⟩)
      exact List.mk_mem_zipIdx_iff_getElem?.mpr hi
    have hglobal := global_register s r module hi
    refine ⟨_, new_of_mem_exports s r module hmem rfl, ?_, ?_⟩
    · exact (congrArg Value.typ hglobal).trans (typ_globalValue t)
    · exact (congrArg Value.number hglobal).trans (number_globalValue t)
  distinct := by
    intro field hfield field' hfield' heq
    obtain ⟨k, i, h⟩ := mem_exports_of_mem_fields hfield
    obtain ⟨k', i', h'⟩ := mem_exports_of_mem_fields hfield'
    obtain ⟨item, hitem⟩ := fresh?_of_mem_exports s h
    obtain ⟨item', hitem'⟩ := fresh?_of_mem_exports s h'
    have hfound := (new_of_mem_exports s r module h hitem).found
    have hfound' := (new_of_mem_exports s r module h' hitem').found
    rw [heq, hfound'] at hfound
    cases hfound
    exact eq_of_item_eq s h h' hitem hitem'
  others := by
    intro key hkey
    by_cases hmodule : key.module = module
    · subst hmodule
      refine find?_register_of_not_mem ?_
      rw [fields_exports]
      intro hfield
      exact hkey key.field hfield rfl
    · exact find?_register_of_module_ne hmodule
  old := extends_register s r module

end Spectest
end WasmHost
