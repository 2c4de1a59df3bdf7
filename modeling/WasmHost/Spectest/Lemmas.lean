import WasmHost.Registry.Lemmas
import WasmHost.Spectest
import WasmHost.Store.View

/-!
# WasmHost.Spectest.Lemmas

What a registration of the test module defines and makes. `exports` lists it as data; that the
makers do just this, and that none of them fails, is proved here once, so that no later proof runs
them again.

* `register_eq`: it succeeds and makes the definitions, in order, on top of those there were.
* `store_register`, `extends_register`: the new objects, next to the old ones.
-/

namespace WasmHost
namespace Spectest

/-- The exports in the order of their definition: field, kind, and how many new objects of this kind
come before. -/
def exports : List (String × ExternKind × Nat) :=
  printFields.zipIdx.map (fun (field, i) => (field, .function, i))
    ++ [("table", .table, 0), ("memory", .memory, 0)]
    ++ ValType.all.zipIdx.map (fun (t, i) => ("global_" ++ t.name, .global, i))

/-- The fields with their items, when the registration starts in a store. -/
def items (s : Store) : List (String × Extern) :=
  exports.filterMap fun (field, k, i) => (s.fresh? k i).map (fun item => (field, item))

/-- What the makers add, since none of them is refused. -/
def additions (module : String) : List (Store → Store × String × Extern) :=
  printFields.map (fun field s => addPrint s module field)
    ++ [fun s => ((s.addTable (.empty tableLength tableMax)).1, "table",
          .table (s.addTable (.empty tableLength tableMax)).2),
        fun s => ((s.addMemory (.zeroed memoryPages memoryMax)).1, "memory",
          .memory (s.addMemory (.zeroed memoryPages memoryMax)).2)]
    ++ ValType.all.map (fun t s => addGlobal s t)

/-- The store after a list of additions. -/
def grown : List (Store → Store × String × Extern) → Store → Store
  | [], s => s
  | add :: rest, s => grown rest (add s).1

/-- What a list of additions makes, one after the other. -/
def made : List (Store → Store × String × Extern) → Store → List (String × Extern)
  | [], _ => []
  | add :: rest, s => (add s).2 :: made rest (add s).1

/-- The declared table and memory are within their limits, so every maker succeeds. -/
theorem makers_eq (module : String) :
    makers module = (additions module).map (fun add s => .ok (add s)) := rfl

theorem defineEach_additions (module : String) (adds : List (Store → Store × String × Extern))
    (s : Store) (r : Registry) :
    defineEach module (adds.map fun add s => .ok (add s)) s r =
      ⟨(grown adds s, r.defineAll module (made adds s)), .ok (),
        (made adds s).map fun (field, item) => .exported module field item.kind⟩ := by
  induction adds generalizing s r with
  | nil => rfl
  | cons add rest ih =>
    simp only [List.map_cons, defineEach]
    rw [ih]
    rfl

theorem made_additions (module : String) (s : Store) : made (additions module) s = items s := by
  simp [made, additions, items, exports, printFields, ValType.all, addPrint, addGlobal,
    Store.addFunction, Store.addTable, Store.addMemory, Store.addGlobal, Store.fresh?,
    Store.count, Extern.shared?, List.zipIdx]

/-- A registration succeeds, defines the exports in order on top of what there was, and reports each
of them and then itself. -/
theorem register_eq (s : Store) (r : Registry) (module : String) :
    register s r module =
      ⟨(grown (additions module) s, r.defineAll module (items s)), .ok (),
        (items s).map (fun (field, item) => .exported module field item.kind)
          ++ [.spectestRegistered module]⟩ := by
  rw [register, makers_eq, defineEach_additions, made_additions]
  rfl

theorem registry_register (s : Store) (r : Registry) (module : String) :
    (register s r module).state.2 = r.defineAll module (items s) := by
  rw [register_eq]

/-- The new objects stand behind the old ones. -/
theorem store_register (s : Store) (r : Registry) (module : String) :
    (register s r module).state.1 =
      { memories := s.memories.push (.zeroed memoryPages memoryMax)
        tables := s.tables.push (.empty tableLength tableMax)
        functions := s.functions ++
          (printFields.map fun field => ⟨module ++ "." ++ field, .print field⟩).toArray
        globals := s.globals ++ (ValType.all.map globalValue).toArray } := by
  rw [register_eq]
  simp only [grown, additions, printFields, ValType.all, addPrint, addGlobal, Store.addFunction,
    Store.addTable, Store.addMemory, Store.addGlobal, List.map_cons, List.map_nil, List.cons_append,
    List.nil_append, Store.mk.injEq, true_and]
  constructor
  · apply Array.ext'
    simp
  · apply Array.ext'
    simp

theorem fields_items (s : Store) : (items s).map Prod.fst = exports.map Prod.fst := by
  simp [items, exports, printFields, ValType.all, Store.fresh?, Extern.shared?, List.zipIdx]

theorem nodup_items (s : Store) : ((items s).map Prod.fst).Nodup := by
  rw [fields_items]
  decide

theorem mem_items_iff {s : Store} {field : String} {item : Extern} :
    (field, item) ∈ items s ↔ ∃ k i, (field, k, i) ∈ exports ∧ s.fresh? k i = some item := by
  simp only [items, List.mem_filterMap, Option.map_eq_some_iff, Prod.mk.injEq]
  constructor
  · rintro ⟨⟨field', k, i⟩, hmem, item', hfresh, rfl, rfl⟩
    exact ⟨k, i, hmem, hfresh⟩
  · rintro ⟨k, i, hmem, hfresh⟩
    exact ⟨(field, k, i), hmem, item, hfresh, rfl, rfl⟩

theorem mem_exports_of_lookup {field : String} {k : ExternKind} {i : Nat}
    (h : exports.lookup field = some (k, i)) : (field, k, i) ∈ exports := by
  obtain ⟨before, after, hsplit, _⟩ := List.lookup_eq_some_iff.mp h
  rw [hsplit]
  simp

theorem not_mem_fields_of_lookup {field : String} (h : exports.lookup field = none) :
    field ∉ exports.map Prod.fst := by
  intro hfield
  obtain ⟨e, he, rfl⟩ := List.mem_map.mp hfield
  have hne := List.lookup_eq_none_iff.mp h e he
  simp at hne

theorem fresh?_of_mem_exports (s : Store) {field : String} {k : ExternKind} {i : Nat}
    (h : (field, k, i) ∈ exports) : ∃ item, s.fresh? k i = some item := by
  have hkind : ∀ e ∈ exports, e.2.1 ≠ .constant := by decide
  cases k with
  | constant => exact absurd rfl (hkind _ h)
  | function => exact ⟨_, rfl⟩
  | table => exact ⟨_, rfl⟩
  | memory => exact ⟨_, rfl⟩
  | global => exact ⟨_, rfl⟩

/-! ## The registry -/

theorem find?_register_of_mem {s : Store} {r : Registry} {module field : String} {item : Extern}
    (h : (field, item) ∈ items s) :
    (register s r module).state.2.find? ⟨module, field⟩ = some item := by
  rw [registry_register]
  exact Registry.find?_defineAll_of_mem r (nodup_items s) h

theorem find?_register_of_not_mem {s : Store} {r : Registry} {module field : String}
    (h : field ∉ exports.map Prod.fst) :
    (register s r module).state.2.find? ⟨module, field⟩ = r.find? ⟨module, field⟩ := by
  rw [registry_register]
  rw [← fields_items s] at h
  exact Registry.find?_defineAll_of_not_mem r h

theorem find?_register_of_module_ne {s : Store} {r : Registry} {module : String} {key : ExportKey}
    (h : key.module ≠ module) : (register s r module).state.2.find? key = r.find? key := by
  rw [registry_register]
  exact Registry.find?_defineAll_of_module_ne r (items s) h

/-! ## The store -/

theorem extends_register (s : Store) (r : Registry) (module : String) :
    s.Extends (register s r module).state.1 := by
  rw [store_register]
  refine ⟨fun k => ?_, fun item hitem => ?_⟩
  · cases k <;> simp [Store.count]
  · cases item with
    | constant v => rfl
    | function a =>
      refine congrArg View.function ?_
      simp only [Store.function, Array.getElem?_append_left hitem]
    | table a =>
      refine congrArg View.table ?_
      simp only [Store.table, Array.getElem?_push_lt hitem, Array.getElem?_eq_getElem hitem]
    | memory a =>
      refine congrArg View.memory ?_
      simp only [Store.memory, Array.getElem?_push_lt hitem, Array.getElem?_eq_getElem hitem]
    | global a =>
      refine congrArg View.global ?_
      simp only [Store.global, Array.getElem?_append_left hitem]

/-- There is a new object for each export and no other. -/
theorem count_register (s : Store) (r : Registry) (module : String) (k : ExternKind) :
    (register s r module).state.1.count k = s.count k + (exports.map (·.2.1)).count k := by
  rw [store_register]
  cases k <;> simp [Store.count, exports, printFields, ValType.all, List.zipIdx]

theorem place_lt_of_mem_exports {field : String} {k : ExternKind} {i : Nat}
    (h : (field, k, i) ∈ exports) : i < (exports.map (·.2.1)).count k := by
  have hall : ∀ e ∈ exports, e.2.2 < (exports.map (·.2.1)).count e.2.1 := by decide
  exact hall (field, k, i) h

end Spectest
end WasmHost
