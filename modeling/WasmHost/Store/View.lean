import WasmHost.Registry.Basic
import WasmHost.Store.Lemmas

/-!
# WasmHost.Store.View

What can be seen of a store from outside: how many objects of each kind it has, and what an item
that refers to one shows. A store extends another if it has all objects of the other as they were.
-/

namespace WasmHost

/-- The item that refers to an address. Constants are values, and no address stands for one. -/
def Extern.shared? : (k : ExternKind) → Addr k → Option Extern
  | .function, a => some (.function a)
  | .table, a => some (.table a)
  | .memory, a => some (.memory a)
  | .global, a => some (.global a)
  | .constant, _ => none

namespace Extern

variable {k k' : ExternKind} {a : Addr k} {item : Extern}

theorem exists_shared? (h : k ≠ .constant) (a : Addr k) : ∃ item, shared? k a = some item := by
  cases k with
  | constant => exact absurd rfl h
  | _ => exact ⟨_, rfl⟩

theorem kind_of_shared? (h : shared? k a = some item) : item.kind = k := by
  cases k with
  | constant => cases h
  | _ =>
    cases h
    rfl

theorem shared?_inj {b : Addr k'} (h : shared? k a = some item) (h' : shared? k' b = some item) :
    k = k' ∧ a.index = b.index := by
  have hkind : k = k' := (kind_of_shared? h).symm.trans (kind_of_shared? h')
  subst hkind
  rw [← h'] at h
  cases k with
  | constant => cases h'
  | _ =>
    cases h
    exact ⟨rfl, rfl⟩

end Extern

/-- What an item shows: the object it refers to as it is now, or its own value. -/
inductive View where
  | function (f : HostFunction)
  | table (t : Table)
  | memory (m : Memory)
  | global (v : Value)
  | constant (v : Value)

namespace Store

def count (s : Store) : ExternKind → Nat
  | .function => s.functions.size
  | .table => s.tables.size
  | .memory => s.memories.size
  | .global => s.globals.size
  | .constant => 0

/-- The item for the object of a kind that will be made after `i` others of this kind. -/
def fresh? (s : Store) (k : ExternKind) (i : Nat) : Option Extern :=
  Extern.shared? k ⟨s.count k + i⟩

/-- The item refers to an object of the store, or to none. -/
def Has (s : Store) : Extern → Prop
  | .function a => a.index < s.count .function
  | .table a => a.index < s.count .table
  | .memory a => a.index < s.count .memory
  | .global a => a.index < s.count .global
  | .constant _ => True

def view (s : Store) : Extern → View
  | .function a => .function (s.function a)
  | .table a => .table (s.table a)
  | .memory a => .memory (s.memory a)
  | .global a => .global (s.global a)
  | .constant v => .constant v

structure Extends (s s' : Store) : Prop where
  count_le : ∀ k, s.count k ≤ s'.count k
  view_eq : ∀ item, s.Has item → s'.view item = s.view item

theorem has_of_count_le {s s' : Store} (h : ∀ k, s.count k ≤ s'.count k) {item : Extern}
    (hitem : s.Has item) : s'.Has item := by
  cases item with
  | constant v => trivial
  | function a => exact Nat.lt_of_lt_of_le hitem (h .function)
  | table a => exact Nat.lt_of_lt_of_le hitem (h .table)
  | memory a => exact Nat.lt_of_lt_of_le hitem (h .memory)
  | global a => exact Nat.lt_of_lt_of_le hitem (h .global)

theorem Extends.refl (s : Store) : Extends s s := ⟨fun _ => Nat.le_refl _, fun _ _ => rfl⟩

theorem Extends.trans {s s' s'' : Store} (h : Extends s s') (h' : Extends s' s'') :
    Extends s s'' := by
  refine ⟨fun k => Nat.le_trans (h.count_le k) (h'.count_le k), fun item hitem => ?_⟩
  rw [h'.view_eq item (has_of_count_le h.count_le hitem), h.view_eq item hitem]

theorem has_of_shared?_eq {s : Store} {k : ExternKind} {a : Addr k} {item : Extern}
    (h : Extern.shared? k a = some item) : s.Has item ↔ a.index < s.count k := by
  cases k with
  | constant => cases h
  | function => cases h; rfl
  | table => cases h; rfl
  | memory => cases h; rfl
  | global => cases h; rfl

/-! ## New objects -/

section

variable (s : Store)

theorem count_addFunction (f : HostFunction) (k : ExternKind) :
    (s.addFunction f).1.count k = s.count k + if k = .function then 1 else 0 := by
  cases k <;> simp [addFunction, count]

theorem count_addTable (t : Table) (k : ExternKind) :
    (s.addTable t).1.count k = s.count k + if k = .table then 1 else 0 := by
  cases k <;> simp [addTable, count]

theorem count_addMemory (m : Memory) (k : ExternKind) :
    (s.addMemory m).1.count k = s.count k + if k = .memory then 1 else 0 := by
  cases k <;> simp [addMemory, count]

theorem count_addGlobal (v : Value) (k : ExternKind) :
    (s.addGlobal v).1.count k = s.count k + if k = .global then 1 else 0 := by
  cases k <;> simp [addGlobal, count]

theorem extends_addFunction (f : HostFunction) : Extends s (s.addFunction f).1 := by
  refine ⟨fun k => ?_, fun item hitem => ?_⟩
  · rw [count_addFunction]
    exact Nat.le_add_right _ _
  · cases item with
    | function a =>
      exact congrArg View.function (by simp [function, addFunction, Array.getElem?_push,
        Nat.ne_of_lt (show a.index < s.functions.size from hitem)])
    | _ => rfl

theorem extends_addTable (t : Table) : Extends s (s.addTable t).1 := by
  refine ⟨fun k => ?_, fun item hitem => ?_⟩
  · rw [count_addTable]
    exact Nat.le_add_right _ _
  · cases item with
    | table a => exact congrArg View.table (s.table_addTable_of_lt hitem t)
    | _ => rfl

theorem extends_addMemory (m : Memory) : Extends s (s.addMemory m).1 := by
  refine ⟨fun k => ?_, fun item hitem => ?_⟩
  · rw [count_addMemory]
    exact Nat.le_add_right _ _
  · cases item with
    | memory a => exact congrArg View.memory (s.memory_addMemory_of_lt hitem m)
    | _ => rfl

theorem extends_addGlobal (v : Value) : Extends s (s.addGlobal v).1 := by
  refine ⟨fun k => ?_, fun item hitem => ?_⟩
  · rw [count_addGlobal]
    exact Nat.le_add_right _ _
  · cases item with
    | global a => exact congrArg View.global (s.global_addGlobal_of_lt hitem v)
    | _ => rfl

end

end Store
end WasmHost
