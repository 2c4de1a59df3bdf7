import WasmHost.Proofs.Memory.Bounds

/-!
# WasmHost.Proofs.Memory.Contents

What a run of operations leaves at an address. `Places` says for each operation where it writes and
which bytes; all else follows from it by induction on the run, however the ranges overlap and
whichever operations fail in between.

* `byteAt_of_places`, `byteAt_of_not_places`: one operation.
* `last_placed_or_untouched`: either some operation was the last to write there, or none wrote.
* `byte_read_is_last_placed`: what a read finds after the run.
-/

namespace WasmHost
namespace Memory

/-- The operation succeeds and puts a byte at an address. A copy takes its bytes from the memory as
it was before. -/
inductive Places (m : Memory) : Op → Nat → UInt8 → Prop
  | store {k : StoreKind} {p o : BitVec 32} {v : Value} {i : Nat} :
      Succeeds m (.store k p o v) → i < k.bytesWritten →
        Places m (.store k p o v) (p.toNat + o.toNat + i) (UInt8.ofNat (v.bits / 256 ^ i))
  | write {p : BitVec 32} {b : ByteArray} {i : Nat} (hi : i < b.size) :
      Succeeds m (.write p b) → Places m (.write p b) (p.toNat + i) b[i]
  | put {p : BitVec 32} {b : ByteArray} {i : Nat} (hi : i < b.size) :
      Succeeds m (.put p b) → Places m (.put p b) (p.toNat + i) b[i]
  | fill {dst len : BitVec 32} {value : UInt8} {i : Nat} :
      Succeeds m (.fill dst value len) → i < len.toNat →
        Places m (.fill dst value len) (dst.toNat + i) value
  | copy {dst src len : BitVec 32} {i : Nat} :
      Succeeds m (.copy dst src len) → i < len.toNat →
        Places m (.copy dst src len) (dst.toNat + i) (m.byteAt (src.toNat + i))

/-- No operation of the run puts a byte at the address. -/
def Untouched (a : Nat) (m : Memory) : List Op → Prop
  | [] => True
  | op :: ops => (∀ b, ¬ Places m op a b) ∧ Untouched a (m.perform op).state ops

/-- Of the bytes that the run puts at the address, this is the last. -/
def LastPlaced (a : Nat) (m : Memory) (ops : List Op) (b : UInt8) : Prop :=
  ∃ before op after, ops = before ++ op :: after ∧ Places (m.run before) op a b ∧
    Untouched a (m.run (before ++ [op])) after

/-! ## One operation -/

theorem Places.succeeds {m : Memory} {op : Op} {a : Nat} {b : UInt8} (h : Places m op a b) :
    Succeeds m op := by
  cases h with
  | store hok _ => exact hok
  | write _ hok => exact hok
  | put _ hok => exact hok
  | fill hok _ => exact hok
  | copy hok _ => exact hok

theorem byteAt_of_places {m : Memory} {op : Op} {a : Nat} {b : UInt8} (h : Places m op a b) :
    (m.perform op).state.byteAt a = b := by
  cases h with
  | @store k p o v i hok hi =>
    obtain ⟨hle, hstate⟩ := state_of_store hok
    rw [← k.width_eq_bytesWritten] at hi
    have hbyte := LittleEndian.getElem?_encode v.bits hi
    rw [← size_encoded k v] at hi
    rw [hstate, byteAt_splice_inside hle hi, ByteArray.getElem_eq_getElem_data]
    simpa using (List.getElem?_eq_some_iff.mp hbyte).2
  | write hi hok =>
    obtain ⟨hle, hstate⟩ := state_of_write hok
    rw [hstate]
    exact byteAt_splice_inside hle hi
  | put hi hok =>
    obtain ⟨hle, hstate⟩ := state_of_put hok
    rw [hstate]
    exact byteAt_splice_inside hle hi
  | @fill dst len _ i hok hi =>
    obtain ⟨hle, hstate⟩ := state_of_fill hok
    rw [← size_filled b len.toNat] at hi
    rw [hstate, byteAt_splice_inside hle hi, ByteArray.getElem_eq_getElem_data]
    simp
  | @copy dst src len i hok hi =>
    obtain ⟨hsrc, hdst, hstate⟩ := state_of_copy hok
    have hbyte := getElem_slice hsrc hi
    rw [← size_slice hsrc] at hi
    rw [getElem?_pos (m.slice src.toNat len.toNat) i hi] at hbyte
    rw [hstate, byteAt_splice_inside hdst hi]
    exact hbyte

/-- If an operation writes a range and puts a byte at each address of it, it puts one wherever it
changes one. -/
theorem byteAt_of_splice {m : Memory} {op : Op} {start a : Nat} {b : ByteArray}
    (hwrites : start + b.size ≤ m.byteLen ∧ (m.perform op).state = m.splice start b)
    (hplaces : ∀ i < b.size, ∃ x, Places m op (start + i) x) (h : ∀ x, ¬ Places m op a x) :
    (m.perform op).state.byteAt a = m.byteAt a := by
  obtain ⟨hle, hstate⟩ := hwrites
  rw [hstate]
  refine byteAt_splice_outside hle ?_
  rintro i hi rfl
  obtain ⟨x, hx⟩ := hplaces i hi
  exact h x hx

/-- Where an operation puts no byte, the old one stays: growth and all that fails among them. -/
theorem byteAt_of_not_places {m : Memory} {op : Op} {a : Nat} (h : ∀ b, ¬ Places m op a b) :
    (m.perform op).state.byteAt a = m.byteAt a := by
  by_cases hok : Succeeds m op
  · cases op with
    | load k p o => rfl
    | read p len => rfl
    | store k p o v =>
      refine byteAt_of_splice (state_of_store hok) ?_ h
      intro i hi
      rw [size_encoded, k.width_eq_bytesWritten] at hi
      exact ⟨_, .store hok hi⟩
    | write p b => exact byteAt_of_splice (state_of_write hok) (fun i hi => ⟨_, .write hi hok⟩) h
    | put p b => exact byteAt_of_splice (state_of_put hok) (fun i hi => ⟨_, .put hi hok⟩) h
    | fill dst value len =>
      refine byteAt_of_splice (state_of_fill hok) ?_ h
      intro i hi
      rw [size_filled] at hi
      exact ⟨_, .fill hok hi⟩
    | copy dst src len =>
      obtain ⟨hsrc, hwrites⟩ := state_of_copy hok
      refine byteAt_of_splice hwrites ?_ h
      intro i hi
      rw [size_slice hsrc] at hi
      exact ⟨_, .copy hok hi⟩
    | grow delta =>
      rcases grow_cases m delta with ⟨hstate, _⟩ | ⟨_, _, _, hstate⟩
      · exact congrArg (byteAt · a) hstate
      -- what growth adds is behind the old end, which read as zero already
      · have hbyte := byteAt_extendTo m ((m.size + delta.toNat) * pageSize) a
        rw [← hstate] at hbyte
        exact hbyte
  · rw [state_of_not_succeeds hok]

/-! ## Runs -/

theorem byteAt_of_untouched {a : Nat} {m : Memory} {ops : List Op} (h : Untouched a m ops) :
    (m.run ops).byteAt a = m.byteAt a := by
  induction ops generalizing m with
  | nil => rfl
  | cons op ops ih =>
    obtain ⟨hop, hops⟩ := h
    rw [run_cons, ih hops]
    exact byteAt_of_not_places hop

theorem byteAt_of_lastPlaced {a : Nat} {m : Memory} {ops : List Op} {b : UInt8}
    (h : LastPlaced a m ops b) : (m.run ops).byteAt a = b := by
  obtain ⟨before, op, after, rfl, hop, hafter⟩ := h
  have hstep : m.run (before ++ [op]) = ((m.run before).perform op).state :=
    run_append m before [op]
  have hops : m.run (before ++ op :: after) = (m.run (before ++ [op])).run after := by
    rw [← run_append, List.append_assoc]
    rfl
  rw [hops, byteAt_of_untouched hafter, hstep]
  exact byteAt_of_places hop

theorem last_placed_or_untouched (a : Nat) (m : Memory) (ops : List Op) :
    (∃ b, LastPlaced a m ops b) ∨ Untouched a m ops := by
  induction ops generalizing m with
  | nil => exact .inr trivial
  | cons op ops ih =>
    -- the rest is asked first: a byte placed there is later than one placed by `op`
    rcases ih (m.perform op).state with ⟨b, before, last, after, rfl, hlast, hafter⟩ | hops
    · exact .inl ⟨b, op :: before, last, after, rfl, hlast, hafter⟩
    · by_cases hop : ∃ b, Places m op a b
      · obtain ⟨b, hb⟩ := hop
        exact .inl ⟨b, [], op, ops, rfl, hb, hops⟩
      · exact .inr ⟨fun b hb => hop ⟨b, hb⟩, hops⟩

theorem read_one {m : Memory} (hm : WellFormed m) {a : Nat} (ha : a < m.byteLen) :
    (m.perform (.read (BitVec.ofNat 32 a) 1)).result = .ok (.bytes ⟨#[m.byteAt a]⟩) := by
  have hlen := hm.byteLen_le
  have haddr : (BitVec.ofNat 32 a).toNat = a := by
    rw [BitVec.toNat_ofNat]
    exact Nat.mod_eq_of_lt (by omega)
  have hspan := span_zero hm (BitVec.ofNat 32 a) 1
  rw [haddr, if_pos (by omega)] at hspan
  simp only [perform, read, hspan, slice_one ha, Except.map]

/-- In a memory that was allocated and then worked on, the byte read at an address is the one put
there by the last operation that succeeded and wrote to the address, and zero if none did. -/
theorem byte_read_is_last_placed {initial max : Nat} {made : Memory}
    (hmade : allocate initial max = .ok made) (ops : List Op) {a : Nat}
    (ha : a < (made.run ops).byteLen) :
    (∀ b, LastPlaced a made ops b →
      ((made.run ops).perform (.read (BitVec.ofNat 32 a) 1)).result = .ok (.bytes ⟨#[b]⟩)) ∧
    (Untouched a made ops →
      ((made.run ops).perform (.read (BitVec.ofNat 32 a) 1)).result = .ok (.bytes ⟨#[0]⟩)) ∧
    ((∃ b, LastPlaced a made ops b) ∨ Untouched a made ops) := by
  have hread := read_one (wellFormed_of_reachable (reachable_run (.allocate hmade) ops)) ha
  obtain ⟨_, _, rfl⟩ := allocate_eq_ok_iff.mp hmade
  refine ⟨?_, ?_, last_placed_or_untouched a _ ops⟩
  · intro b hb
    rw [hread, byteAt_of_lastPlaced hb]
  · intro hnone
    rw [hread, byteAt_of_untouched hnone, byteAt_zeroed]

def threeBytes : Op := .write 10 ⟨#[1, 2, 3]⟩

/-- Three bytes are moved up by one, and a fill that starts at the second of them hangs over the
end. -/
def moved : List Op := [threeBytes, .copy 11 10 3, .fill 12 9 4294967295]

theorem lastPlaced_moved {m : Memory} (hm : Reachable m) (hpage : 65536 ≤ m.byteLen) :
    LastPlaced 12 m moved 2 := by
  have hwf : ∀ ops, WellFormed (m.run ops) := by
    intro ops
    exact wellFormed_of_reachable (reachable_run hm ops)
  have hlen : ∀ ops, 65536 ≤ (m.run ops).byteLen := by
    intro ops
    exact Nat.le_trans hpage (byteLen_le_run m ops)
  have hwrite : Places m threeBytes 11 2 := by
    have hlaw : LawfulAccess m threeBytes 10 0 3 := lawful_of_access (hwf []) rfl
    exact .write (i := 1) (by decide)
      (hlaw.succeeds.mpr ⟨by decide, Nat.le_trans (by decide) hpage⟩)
  have hcopy : Places (m.run [threeBytes]) (.copy 11 10 3) 12 2 := by
    have hok := (lawful_copy (hwf [threeBytes]) 11 10 3).succeeds.mpr
      ⟨Nat.le_trans (by decide) (hlen _), Nat.le_trans (by decide) (hlen _)⟩
    have hplaced : Places (m.run [threeBytes]) (.copy 11 10 3) 12
        ((m.run [threeBytes]).byteAt 11) := .copy (i := 1) hok (by decide)
    have hbyte : (m.run [threeBytes]).byteAt 11 = 2 := byteAt_of_places hwrite
    rw [hbyte] at hplaced
    exact hplaced
  have hfill : Untouched 12 (m.run [threeBytes, .copy 11 10 3]) [.fill 12 9 4294967295] := by
    have hlaw : LawfulAccess (m.run [threeBytes, .copy 11 10 3]) (.fill 12 9 4294967295) 12 0
        4294967295 := lawful_of_access (hwf _) rfl
    have hbytes := (hwf [threeBytes, .copy 11 10 3]).byteLen_le
    refine ⟨?_, trivial⟩
    intro b h
    have hover : 4294967307 ≤ (m.run [threeBytes, .copy 11 10 3]).byteLen :=
      (hlaw.succeeds.mp h.succeeds).2
    omega
  exact ⟨[threeBytes], .copy 11 10 3, _, rfl, hcopy, hfill⟩

theorem byte_of_moved :
    allocate 1 2 = .ok (zeroed 1 2) ∧ 12 < ((zeroed 1 2).run moved).byteLen ∧
      LastPlaced 12 (zeroed 1 2) moved 2 ∧
      (((zeroed 1 2).run moved).perform (.read 12 1)).result = .ok (.bytes ⟨#[2]⟩) := by
  have hmade : allocate 1 2 = .ok (zeroed 1 2) := rfl
  have hpage : 65536 ≤ (zeroed 1 2).byteLen := Nat.le_of_eq (byteLen_zeroed 1 2).symm
  have hlast := lastPlaced_moved (.allocate hmade) hpage
  have hin : 12 < ((zeroed 1 2).run moved).byteLen :=
    Nat.lt_of_lt_of_le (by decide) (Nat.le_trans hpage (byteLen_le_run _ moved))
  exact ⟨hmade, hin, hlast, (byte_read_is_last_placed hmade moved hin).1 2 hlast⟩

end Memory
end WasmHost
