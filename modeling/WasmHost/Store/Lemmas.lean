import WasmHost.Store

/-!
# WasmHost.Store.Lemmas

What is written under one address is read there again and under no other, and a new object gets
an address that none had before.
-/

namespace WasmHost
namespace Store

variable (s : Store)

theorem memory_setMemory_same {a : Addr .memory} (h : a.index < s.memories.size) (m : Memory) :
    (s.setMemory a m).memory a = m := by
  simp [setMemory, memory, h]

theorem memory_setMemory_other {a b : Addr .memory} (h : b ≠ a) (m : Memory) :
    (s.setMemory a m).memory b = s.memory b := by
  have hi : a.index ≠ b.index := fun hab => h (by cases a; cases b; simp_all)
  simp [setMemory, memory, hi]

theorem table_setTable_same {a : Addr .table} (h : a.index < s.tables.size) (t : Table) :
    (s.setTable a t).table a = t := by
  simp [setTable, table, h]

theorem table_setTable_other {a b : Addr .table} (h : b ≠ a) (t : Table) :
    (s.setTable a t).table b = s.table b := by
  have hi : a.index ≠ b.index := fun hab => h (by cases a; cases b; simp_all)
  simp [setTable, table, hi]

/-- A global takes a value of its own type, and then holds it. -/
theorem setGlobal_same {s s' : Store} {a : Addr .global} {v : Value}
    (ha : a.index < s.globals.size) (h : s.setGlobal a v = .ok s') :
    s'.global a = v ∧ v.typ = (s.global a).typ := by
  unfold setGlobal at h
  split at h
  · rename_i ht
    cases h
    exact ⟨by simp [global, ha], ht⟩
  · cases h

theorem setGlobal_other {s s' : Store} {a b : Addr .global} {v : Value} (hab : b ≠ a)
    (h : s.setGlobal a v = .ok s') : s'.global b = s.global b := by
  have hi : a.index ≠ b.index := fun he => hab (by cases a; cases b; simp_all)
  unfold setGlobal at h
  split at h
  · cases h
    simp [global, hi]
  · cases h

theorem setGlobal_isOk_iff {s : Store} {a : Addr .global} {v : Value} :
    (∃ s', s.setGlobal a v = .ok s') ↔ v.typ = (s.global a).typ := by
  unfold setGlobal
  split
  · rename_i h
    simp [h]
  · rename_i h
    simp [h]

theorem memory_addMemory (m : Memory) : (s.addMemory m).1.memory (s.addMemory m).2 = m := by
  simp [addMemory, memory]

theorem memory_addMemory_of_lt {a : Addr .memory} (h : a.index < s.memories.size) (m : Memory) :
    (s.addMemory m).1.memory a = s.memory a := by
  simp [addMemory, memory, Array.getElem?_push, Nat.ne_of_lt h]

theorem table_addTable (t : Table) : (s.addTable t).1.table (s.addTable t).2 = t := by
  simp [addTable, table]

theorem table_addTable_of_lt {a : Addr .table} (h : a.index < s.tables.size) (t : Table) :
    (s.addTable t).1.table a = s.table a := by
  simp [addTable, table, Array.getElem?_push, Nat.ne_of_lt h]

theorem global_addGlobal (v : Value) : (s.addGlobal v).1.global (s.addGlobal v).2 = v := by
  simp [addGlobal, global]

theorem global_addGlobal_of_lt {a : Addr .global} (h : a.index < s.globals.size) (v : Value) :
    (s.addGlobal v).1.global a = s.global a := by
  simp [addGlobal, global, Array.getElem?_push, Nat.ne_of_lt h]

end Store
end WasmHost
