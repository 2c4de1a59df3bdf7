import WasmHost.Proofs.Memory.Run

/-!
# WasmHost.Proofs.Memory.Size

The size of a memory, over all its life. It is no field of a memory: it is the length of the bytes
counted in pages, so every operation has to keep that length, and growth has to keep it whole.

* `grow_decides`: when growth adds pages, and what it answers.
* `sized_run`: what holds at every point.
* `sizeStep_of_wellFormed`: what the next operation does to the size.
* `size_over_all_runs`: both, from the allocation on.
-/

namespace WasmHost
namespace Memory

/-- The size at one point in the life of a memory made with `initial` of at most `max` pages. -/
structure Sized (initial max : Nat) (m : Memory) : Prop where
  whole : m.byteLen % 65536 = 0
  byteLen_eq : m.byteLen = m.size * 65536
  initial_le : initial ≤ m.size
  size_le : m.size ≤ m.maxPages
  maxPages_le : m.maxPages ≤ 65536
  maxPages_eq : m.maxPages = max
  word : (BitVec.ofNat 32 m.size).toNat = m.size

/-- What growth by `delta` pages does and answers. -/
inductive Growth (m : Memory) (delta : BitVec 32) : Int → Memory → Prop
  | refused : delta.toInt < 0 ∨ m.maxPages < m.size + delta.toNat → Growth m delta (-1) m
  | grown {m' : Memory} : 0 ≤ delta.toInt → m.size + delta.toNat ≤ m.maxPages →
      m'.size = m.size + delta.toNat → Growth m delta m.size m'

/-- What an operation does to the size. -/
structure SizeStep (m : Memory) (op : Op) : Prop where
  size_le : m.size ≤ (m.perform op).state.size
  maxPages_eq : (m.perform op).state.maxPages = m.maxPages
  grows : (m.perform op).state.size ≠ m.size →
    ∃ delta, op = .grow delta ∧ (m.perform op).result = .ok (.grown m.size)
  answer : ∀ delta, op = .grow delta → ∃ result : Int,
    (m.perform op).result = .ok (.grown result) ∧ (BitVec.ofInt 32 result).toInt = result ∧
      Growth m delta result (m.perform op).state

/-! ## One operation -/

section Step

variable {m : Memory}

theorem size_le_perform (m : Memory) (op : Op) : m.size ≤ (m.perform op).state.size :=
  Nat.div_le_div_right (byteLen_le_perform m op)

theorem maxPages_perform (m : Memory) (op : Op) :
    (m.perform op).state.maxPages = m.maxPages := by
  rcases perform_cases m op with hstate | ⟨start, b, _, hstate⟩ | ⟨delta, _, _, hstate⟩
  · rw [hstate]
  · rw [hstate, maxPages_splice]
  · rw [hstate, maxPages_extendTo]

/-- Only growth changes the length; a write keeps it, whichever bytes it overwrites. -/
theorem byteLen_perform {op : Op} (h : ∀ delta, op ≠ .grow delta) :
    (m.perform op).state.byteLen = m.byteLen := by
  rcases perform_cases m op with hstate | ⟨start, b, hle, hstate⟩ | ⟨delta, hgrow, _, _⟩
  · rw [hstate]
  · rw [hstate, byteLen_splice hle]
  · exact absurd hgrow (h delta)

/-- The two guards of growth come to one: the pages asked for are within the maximum. -/
theorem grow_decides (hm : WellFormed m) (delta : BitVec 32) :
    ∃ result : Int, (m.perform (.grow delta)).result = .ok (.grown result) ∧
      Growth m delta result (m.perform (.grow delta)).state := by
  have hmax := hm.maxPages_le
  simp only [perform, grow]
  by_cases hdelta : delta.toInt < 0 ∨ pageLimit < delta.toNat
  · rw [if_pos hdelta]
    exact ⟨-1, rfl, .refused (by omega)⟩
  · rw [if_neg hdelta]
    by_cases hover : m.maxPages < m.size + delta.toNat ∨ pageLimit < m.size + delta.toNat
    · rw [if_pos hover]
      exact ⟨-1, rfl, .refused (by omega)⟩
    · rw [if_neg hover]
      exact ⟨m.size, rfl, .grown (by omega) (by omega) (size_extendTo_pages hm _)⟩

theorem Growth.within {delta : BitVec 32} {result : Int} {m' : Memory}
    (h : Growth m delta result m') (hdelta : 0 ≤ delta.toInt)
    (hmax : m.size + delta.toNat ≤ m.maxPages) :
    result = m.size ∧ m'.size = m.size + delta.toNat := by
  cases h with
  | refused hguard => omega
  | grown _ _ hsize => exact ⟨rfl, hsize⟩

theorem Growth.beyond {delta : BitVec 32} {result : Int} {m' : Memory}
    (h : Growth m delta result m') (hmax : m.maxPages < m.size + delta.toNat) :
    result = -1 ∧ m' = m := by
  cases h with
  | refused _ => exact ⟨rfl, rfl⟩
  | grown _ hguard _ => omega

theorem size_le_of_wellFormed (hm : WellFormed m) : m.size ≤ 65536 :=
  Nat.le_trans hm.size_le hm.maxPages_le

/-- The answer of growth is -1 or a size, and 32 bits hold either with its sign. -/
theorem toInt_answer (hm : WellFormed m) {delta : BitVec 32} {result : Int} {m' : Memory}
    (h : Growth m delta result m') : (BitVec.ofInt 32 result).toInt = result := by
  have hsize := size_le_of_wellFormed hm
  rw [BitVec.toInt_ofInt]
  cases h with
  | refused _ => rfl
  | grown _ _ _ => exact Int.bmod_eq_of_le (by omega) (by omega)

theorem sizeStep_of_wellFormed (hm : WellFormed m) (op : Op) : SizeStep m op := by
  refine ⟨size_le_perform m op, maxPages_perform m op, ?_, ?_⟩
  · intro hchanged
    by_cases hgrow : ∃ delta, op = .grow delta
    · obtain ⟨delta, rfl⟩ := hgrow
      obtain ⟨result, hresult, hgrowth⟩ := grow_decides hm delta
      refine ⟨delta, rfl, ?_⟩
      rw [hresult]
      generalize (m.perform (.grow delta)).state = m' at hgrowth hchanged
      cases hgrowth with
      | refused _ => exact absurd rfl hchanged
      | grown _ _ _ => rfl
    · refine absurd (size_of_byteLen (byteLen_perform ?_)) hchanged
      intro delta h
      exact hgrow ⟨delta, h⟩
  · rintro delta rfl
    obtain ⟨result, hresult, hgrowth⟩ := grow_decides hm delta
    exact ⟨result, hresult, toInt_answer hm hgrowth, hgrowth⟩

end Step

/-! ## Runs -/

theorem run_concat (m : Memory) (ops : List Op) (op : Op) :
    m.run (ops ++ [op]) = ((m.run ops).perform op).state := run_append m ops [op]

theorem size_le_run (m : Memory) (ops : List Op) : m.size ≤ (m.run ops).size :=
  Nat.div_le_div_right (byteLen_le_run m ops)

theorem maxPages_run (m : Memory) (ops : List Op) : (m.run ops).maxPages = m.maxPages := by
  induction ops generalizing m with
  | nil => rfl
  | cons op ops ih => rw [run_cons, ih, maxPages_perform]

theorem sized_run {initial max : Nat} {made : Memory} (h : allocate initial max = .ok made)
    (ops : List Op) : Sized initial max (made.run ops) := by
  have hwf := wellFormed_of_reachable (reachable_run (.allocate h) ops)
  have hsize := size_le_of_wellFormed hwf
  have hwhole : (made.run ops).byteLen = (made.run ops).size * 65536 := hwf.whole
  obtain ⟨_, _, rfl⟩ := allocate_eq_ok_iff.mp h
  have hle := size_le_run (zeroed initial max) ops
  rw [size_zeroed] at hle
  refine ⟨?_, hwhole, hle, hwf.size_le, hwf.maxPages_le, maxPages_run _ ops, ?_⟩
  · rw [hwhole]
    exact Nat.mul_mod_left _ _
  · rw [BitVec.toNat_ofNat]
    exact Nat.mod_eq_of_lt (by omega)

/-- An allocation succeeds exactly within the limits and gives zero bytes. From then on, whatever is
done and whatever fails: the bytes are whole pages, as many as the size says, no fewer than at first
and no more than the maximum, which stays; the size never falls, and it changes only by a growth
that answers the old size. -/
theorem size_over_all_runs (initial max : Nat) :
    ((∃ made, allocate initial max = .ok made) ↔ initial ≤ max ∧ max ≤ 65536) ∧
    ∀ made, allocate initial max = .ok made →
      made.bytes = ⟨Array.replicate (initial * 65536) 0⟩ ∧
      ∀ ops : List Op,
        Sized initial max (made.run ops) ∧
        (∀ more, (made.run ops).size ≤ (made.run (ops ++ more)).size) ∧
        ∀ op, SizeStep (made.run ops) op := by
  refine ⟨⟨?_, ?_⟩, ?_⟩
  · rintro ⟨made, h⟩
    obtain ⟨hinitial, hmax, _⟩ := allocate_eq_ok_iff.mp h
    exact ⟨hinitial, hmax⟩
  · rintro ⟨hinitial, hmax⟩
    exact ⟨zeroed initial max, allocate_eq_ok_iff.mpr ⟨hinitial, hmax, rfl⟩⟩
  · intro made h
    have hbytes : made.bytes = ⟨Array.replicate (initial * 65536) 0⟩ := by
      obtain ⟨_, _, rfl⟩ := allocate_eq_ok_iff.mp h
      rfl
    refine ⟨hbytes, ?_⟩
    intro ops
    refine ⟨sized_run h ops, ?_, ?_⟩
    · intro more
      rw [run_append]
      exact size_le_run _ more
    · intro op
      exact sizeStep_of_wellFormed (wellFormed_of_reachable (reachable_run (.allocate h) ops)) op

/-- One page of at most three: after growth by one, growth by two is refused and growth by one more
answers two. -/
theorem size_after_growth :
    allocate 1 3 = .ok (zeroed 1 3) ∧ ((zeroed 1 3).run [.grow 1]).size = 2 ∧
      (((zeroed 1 3).run [.grow 1]).perform (.grow 2)).result = .ok (.grown (-1)) ∧
      (((zeroed 1 3).run [.grow 1]).perform (.grow 1)).result = .ok (.grown 2) := by
  have hmade : allocate 1 3 = .ok (zeroed 1 3) := rfl
  obtain ⟨_, hruns⟩ := (size_over_all_runs 1 3).2 _ hmade
  have hstart : ((zeroed 1 3).run []).size = 1 := size_zeroed 1 3
  have hsize : ((zeroed 1 3).run [.grow 1]).size = 2 := by
    obtain ⟨_, _, _, hgrowth⟩ := ((hruns []).2.2 (.grow 1)).answer 1 rfl
    have hmax : ((zeroed 1 3).run []).maxPages = 3 := (hruns []).1.maxPages_eq
    have hrun := run_concat (zeroed 1 3) [] (.grow 1)
    rw [List.nil_append] at hrun
    rw [hrun, (hgrowth.within (by decide) (by rw [hstart, hmax]; decide)).2, hstart]
    rfl
  have hmax : ((zeroed 1 3).run [.grow 1]).maxPages = 3 := (hruns [.grow 1]).1.maxPages_eq
  refine ⟨hmade, hsize, ?_, ?_⟩
  · obtain ⟨result, hresult, _, hgrowth⟩ := ((hruns [.grow 1]).2.2 (.grow 2)).answer 2 rfl
    rw [hresult, (hgrowth.beyond (by rw [hsize, hmax]; decide)).1]
  · obtain ⟨result, hresult, _, hgrowth⟩ := ((hruns [.grow 1]).2.2 (.grow 1)).answer 1 rfl
    rw [hresult, (hgrowth.within (by decide) (by rw [hsize, hmax]; decide)).1, hsize]
    rfl

end Memory
end WasmHost
