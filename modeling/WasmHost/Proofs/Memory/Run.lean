import WasmHost.Memory.Lemmas
import WasmHost.Memory.Op

/-!
# WasmHost.Proofs.Memory.Run

What a run of operations keeps of a memory: whole pages, no more of them than declared, and no more
declared than 32 bits address. All sums of the bounds check are words because of this. The bytes of
each load and store are counted here too, kind by kind.

* `width_eq_bytesRead`, `width_eq_bytesWritten`: an access has the width of its kind.
* `state_of_not_succeeds`: what fails changes nothing.
* `perform_cases`: an operation leaves the memory alone, overwrites bytes in it, or adds pages.
* `wellFormed_of_reachable`: the invariant, after any run.
-/

namespace WasmHost

namespace LoadKind

/-- How many bytes a load reads. -/
def bytesRead : LoadKind → Nat
  | .full .i32 => 4
  | .full .i64 => 8
  | .full .f32 => 4
  | .full .f64 => 8
  | .load8 .. => 1
  | .load16 .. => 2
  | .load32 _ => 4

theorem width_eq_bytesRead (k : LoadKind) : k.width = k.bytesRead := by
  cases k with
  | full t => cases t <;> rfl
  | load8 t s => rfl
  | load16 t s => rfl
  | load32 s => rfl

end LoadKind

namespace StoreKind

/-- How many bytes a store writes. -/
def bytesWritten : StoreKind → Nat
  | .full .i32 => 4
  | .full .i64 => 8
  | .full .f32 => 4
  | .full .f64 => 8
  | .store8 _ => 1
  | .store16 _ => 2
  | .store32 => 4

theorem width_eq_bytesWritten (k : StoreKind) : k.width = k.bytesWritten := by
  cases k with
  | full t => cases t <;> rfl
  | store8 t => rfl
  | store16 t => rfl
  | store32 => rfl

end StoreKind

namespace Memory

/-- The memories that exist: made by an allocation and then worked on. -/
inductive Reachable : Memory → Prop
  | allocate {initial max : Nat} {m : Memory} : Memory.allocate initial max = .ok m → Reachable m
  | perform {m : Memory} (op : Op) : Reachable m → Reachable (m.perform op).state

/-- The operation does what it says, and is not one that traps. -/
def Succeeds (m : Memory) (op : Op) : Prop := ∃ answer, (m.perform op).result = .ok answer

structure WellFormed (m : Memory) : Prop where
  whole : m.byteLen = m.size * pageSize
  size_le : m.size ≤ m.maxPages
  maxPages_le : m.maxPages ≤ pageLimit

theorem written_cases (m : Memory) (r : Except Trap Memory) :
    (m.written r).state = m ∧ (∀ answer, (m.written r).result ≠ .ok answer) ∨
      r = .ok (m.written r).state ∧ (m.written r).result = .ok .done := by
  cases r with
  | ok m' => exact .inr ⟨rfl, rfl⟩
  | error t => exact .inl ⟨rfl, fun answer h => nomatch h⟩

/-- An operation that traps leaves the whole memory as it was. -/
theorem state_of_trap {m : Memory} {op : Op} {t : Trap} (h : (m.perform op).result = .error t) :
    (m.perform op).state = m := by
  have hwritten : ∀ r, (m.written r).result = .error t → (m.written r).state = m := by
    intro r hr
    rcases written_cases m r with ⟨hstate, _⟩ | ⟨_, hdone⟩
    · exact hstate
    · rw [hdone] at hr
      cases hr
  cases op with
  | load k p o => rfl
  | read p len => rfl
  | store k p o v => exact hwritten _ h
  | write p b => exact hwritten _ h
  | put p b => exact hwritten _ h
  | fill dst value len => exact hwritten _ h
  | copy dst src len => exact hwritten _ h
  | grow delta => cases h

theorem state_of_not_succeeds {m : Memory} {op : Op} (h : ¬ Succeeds m op) :
    (m.perform op).state = m := by
  cases hresult : (m.perform op).result with
  | ok answer => exact absurd ⟨answer, hresult⟩ h
  | error t => exact state_of_trap hresult

/-! ## Writes that succeed -/

theorem size_encoded (k : StoreKind) (v : Value) :
    (⟨(LittleEndian.encode k.width v.bits).toArray⟩ : ByteArray).size = k.width := by
  simp [ByteArray.size, LittleEndian.length_encode]

theorem size_filled (value : UInt8) (n : Nat) :
    (⟨Array.replicate n value⟩ : ByteArray).size = n := by
  simp [ByteArray.size]

section Writes

variable {m : Memory}

theorem eq_ok_of_written {r : Except Trap Memory}
    (h : ∃ answer, (m.written r).result = .ok answer) : r = .ok (m.written r).state := by
  obtain ⟨answer, h⟩ := h
  rcases written_cases m r with ⟨_, htrap⟩ | ⟨hok, _⟩
  · exact absurd h (htrap answer)
  · exact hok

theorem state_of_store {k : StoreKind} {p o : BitVec 32} {v : Value}
    (h : Succeeds m (.store k p o v)) :
    p.toNat + o.toNat + (⟨(LittleEndian.encode k.width v.bits).toArray⟩ : ByteArray).size ≤
        m.byteLen ∧
      (m.perform (.store k p o v)).state =
        m.splice (p.toNat + o.toNat) ⟨(LittleEndian.encode k.width v.bits).toArray⟩ :=
  eq_splice_of_write (eq_ok_of_written h)

theorem state_of_write {p : BitVec 32} {b : ByteArray} (h : Succeeds m (.write p b)) :
    p.toNat + b.size ≤ m.byteLen ∧ (m.perform (.write p b)).state = m.splice p.toNat b :=
  eq_splice_of_write (eq_ok_of_written h)

theorem state_of_put {p : BitVec 32} {b : ByteArray} (h : Succeeds m (.put p b)) :
    p.toNat + b.size ≤ m.byteLen ∧ (m.perform (.put p b)).state = m.splice p.toNat b := by
  have hput := eq_ok_of_written h
  rw [put_eq_write] at hput
  exact eq_splice_of_write hput

theorem state_of_fill {dst len : BitVec 32} {value : UInt8}
    (h : Succeeds m (.fill dst value len)) :
    dst.toNat + (⟨Array.replicate len.toNat value⟩ : ByteArray).size ≤ m.byteLen ∧
      (m.perform (.fill dst value len)).state =
        m.splice dst.toNat ⟨Array.replicate len.toNat value⟩ := by
  rw [size_filled]
  exact eq_splice_of_fill (eq_ok_of_written h)

theorem state_of_copy {dst src len : BitVec 32} (h : Succeeds m (.copy dst src len)) :
    src.toNat + len.toNat ≤ m.byteLen ∧
      dst.toNat + (m.slice src.toNat len.toNat).size ≤ m.byteLen ∧
      (m.perform (.copy dst src len)).state =
        m.splice dst.toNat (m.slice src.toNat len.toNat) := by
  obtain ⟨hsrc, hdst, hstate⟩ := eq_splice_of_copy (eq_ok_of_written h)
  rw [size_slice hsrc]
  exact ⟨hsrc, hdst, hstate⟩

end Writes

/-- All that an operation can do to a memory. -/
theorem perform_cases (m : Memory) (op : Op) :
    (m.perform op).state = m ∨
      (∃ start b, start + b.size ≤ m.byteLen ∧ (m.perform op).state = m.splice start b) ∨
      (∃ delta, op = .grow delta ∧ m.size + delta.toNat ≤ m.maxPages ∧
        (m.perform op).state = m.extendTo ((m.size + delta.toNat) * pageSize)) := by
  by_cases hok : Succeeds m op
  · cases op with
    | load k p o => exact .inl rfl
    | read p len => exact .inl rfl
    | store k p o v => exact .inr (.inl ⟨_, _, state_of_store hok⟩)
    | write p b => exact .inr (.inl ⟨_, _, state_of_write hok⟩)
    | put p b => exact .inr (.inl ⟨_, _, state_of_put hok⟩)
    | fill dst value len => exact .inr (.inl ⟨_, _, state_of_fill hok⟩)
    | copy dst src len =>
      obtain ⟨_, hdst, hstate⟩ := state_of_copy hok
      exact .inr (.inl ⟨_, _, hdst, hstate⟩)
    | grow delta =>
      rcases grow_cases m delta with ⟨hstate, _⟩ | ⟨hmax, _, _, hstate⟩
      · exact .inl hstate
      · exact .inr (.inr ⟨delta, rfl, hmax, hstate⟩)
  · exact .inl (state_of_not_succeeds hok)

theorem wellFormed_zeroed {initial max : Nat} (h : initial ≤ max) (hmax : max ≤ pageLimit) :
    WellFormed (zeroed initial max) := by
  refine ⟨?_, ?_, hmax⟩
  · rw [byteLen_zeroed, size_zeroed]
  · rw [size_zeroed]
    exact h

theorem size_of_byteLen {m m' : Memory} (h : m'.byteLen = m.byteLen) : m'.size = m.size := by
  rw [size, size, h]

theorem wellFormed_splice {m : Memory} (hm : WellFormed m) {start : Nat} {b : ByteArray}
    (h : start + b.size ≤ m.byteLen) : WellFormed (m.splice start b) := by
  have hlen := byteLen_splice h
  have hsize := size_of_byteLen hlen
  refine ⟨?_, ?_, hm.maxPages_le⟩
  · rw [hlen, hsize]
    exact hm.whole
  · rw [hsize, maxPages_splice]
    exact hm.size_le

theorem byteLen_extendTo_pages {m : Memory} (hm : WellFormed m) (n : Nat) :
    (m.extendTo ((m.size + n) * pageSize)).byteLen = (m.size + n) * pageSize := by
  have hwhole := hm.whole
  rw [byteLen_extendTo, hwhole, Nat.add_mul]
  omega

theorem size_extendTo_pages {m : Memory} (hm : WellFormed m) (n : Nat) :
    (m.extendTo ((m.size + n) * pageSize)).size = m.size + n := by
  rw [size, byteLen_extendTo_pages hm n]
  exact Nat.mul_div_cancel _ (by decide)

theorem wellFormed_extendTo {m : Memory} (hm : WellFormed m) {n : Nat}
    (h : m.size + n ≤ m.maxPages) : WellFormed (m.extendTo ((m.size + n) * pageSize)) := by
  have hlen := byteLen_extendTo_pages hm n
  have hsize := size_extendTo_pages hm n
  refine ⟨?_, ?_, hm.maxPages_le⟩
  · rw [hlen, hsize]
  · rw [hsize, maxPages_extendTo]
    exact h

theorem wellFormed_perform {m : Memory} (hm : WellFormed m) (op : Op) :
    WellFormed (m.perform op).state := by
  rcases perform_cases m op with hstate | ⟨start, b, hle, hstate⟩ | ⟨delta, _, hle, hstate⟩
  · rw [hstate]
    exact hm
  · rw [hstate]
    exact wellFormed_splice hm hle
  · rw [hstate]
    exact wellFormed_extendTo hm hle

theorem wellFormed_of_reachable {m : Memory} (h : Reachable m) : WellFormed m := by
  induction h with
  | allocate hm =>
    obtain ⟨hinitial, hmax, rfl⟩ := allocate_eq_ok_iff.mp hm
    exact wellFormed_zeroed hinitial hmax
  | perform op _ ih => exact wellFormed_perform ih op

/-- A memory has no more bytes than 32 bits address. -/
theorem WellFormed.byteLen_le {m : Memory} (hm : WellFormed m) : m.byteLen ≤ 2 ^ 32 := by
  have hwhole := hm.whole
  have hsize := hm.size_le
  have hmax := hm.maxPages_le
  unfold pageSize at hwhole
  unfold pageLimit at hmax
  omega

theorem run_append (m : Memory) (before after : List Op) :
    m.run (before ++ after) = (m.run before).run after := List.foldl_append

theorem run_cons (m : Memory) (op : Op) (ops : List Op) :
    m.run (op :: ops) = (m.perform op).state.run ops := rfl

theorem reachable_run {m : Memory} (h : Reachable m) (ops : List Op) : Reachable (m.run ops) := by
  induction ops generalizing m with
  | nil => exact h
  | cons op ops ih => exact ih (.perform op h)

/-- No operation takes bytes away. -/
theorem byteLen_le_perform (m : Memory) (op : Op) : m.byteLen ≤ (m.perform op).state.byteLen := by
  rcases perform_cases m op with hstate | ⟨start, b, hle, hstate⟩ | ⟨delta, _, _, hstate⟩
  · exact Nat.le_of_eq (by rw [hstate])
  · exact Nat.le_of_eq (by rw [hstate, byteLen_splice hle])
  · rw [hstate, byteLen_extendTo]
    exact Nat.le_max_left _ _

theorem byteLen_le_run (m : Memory) (ops : List Op) : m.byteLen ≤ (m.run ops).byteLen := by
  induction ops generalizing m with
  | nil => exact Nat.le_refl _
  | cons op ops ih => exact Nat.le_trans (byteLen_le_perform m op) (ih _)

end Memory
end WasmHost
