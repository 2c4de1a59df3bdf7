import WasmHost.Proofs.Memory.Size

/-!
# WasmHost.Proofs.Memory.Growth

The law of growth. The guards look at the number asked for first and at the sum with the size after
that, on words; together they decide one thing about integers, whether the sum is within the
maximum. What is granted are zero bytes behind the old ones, so growth by two numbers in turn is
growth by their sum.

* `perform_of_exceeds`, `perform_of_not_exceeds`: growth as a whole, by that one condition.
* `addPages_addPages`: pages added twice.
* `growth_law`: when growth is refused, what it leaves, answers and reports, and growth in two
  steps.
-/

namespace WasmHost
namespace Memory

/-- Zero pages behind the old bytes. -/
def addPages (m : Memory) (n : Nat) : Memory :=
  { m with bytes := m.bytes ++ zeros (n * pageSize) }

/-- The pages asked for are no number of pages, or too many beside those that are there. -/
def Exceeds (m : Memory) (delta : BitVec 32) : Prop :=
  delta.toInt < 0 ∨ (m.maxPages : Int) < m.size + delta.toInt

/-- What is reported of a growth that is refused. -/
def refusal (m : Memory) (delta : BitVec 32) : Event :=
  if delta.toInt < 0 ∨ (pageLimit : Int) < delta.toInt then
    .memoryDeltaRejected delta.toInt
  else
    .memoryGrowRejected m.size delta.toInt m.maxPages

/-- Growth that answers -1, and leaves and says no more than that it was refused. -/
structure Refused (m : Memory) (delta : BitVec 32) : Prop where
  result : (m.perform (.grow delta)).result = .ok (.grown (-1))
  state : (m.perform (.grow delta)).state = m
  events : (m.perform (.grow delta)).events = [m.refusal delta]
  level : (m.refusal delta).level = .trace
  message : (m.refusal delta).message = "memory.grow rejected: delta out of range" ∨
    (m.refusal delta).message = "memory.grow rejected: exceeds maximum"

/-- Growth that answers the old size, leaves that many more pages of zeros and says so. -/
structure Granted (m : Memory) (delta : BitVec 32) : Prop where
  result : (m.perform (.grow delta)).result = .ok (.grown m.size)
  bytes : (m.perform (.grow delta)).state.bytes =
    m.bytes ++ ⟨Array.replicate (delta.toNat * 65536) 0⟩
  maxPages : (m.perform (.grow delta)).state.maxPages = m.maxPages
  size : (m.perform (.grow delta)).state.size = m.size + delta.toNat
  event : ∃ event : Event, (m.perform (.grow delta)).events = [event] ∧ event.level = .debug ∧
    event.message = "memory grown" ∧
    event.fields = [("old_pages", .number m.size), ("new_pages", .number (m.size + delta.toInt))]

/-! ## Pages -/

theorem zeros_append (a b : Nat) : zeros a ++ zeros b = zeros (a + b) := by
  apply ByteArray.ext
  simp [zeros, Array.replicate_append_replicate]

theorem addPages_addPages (m : Memory) (a b : Nat) :
    (m.addPages a).addPages b = m.addPages (a + b) := by
  simp only [addPages, ByteArray.append_assoc, zeros_append, Nat.add_mul]

theorem toNat_of_toInt_nonneg {x : BitVec 32} (h : 0 ≤ x.toInt) : (x.toNat : Int) = x.toInt := by
  rw [BitVec.toInt_eq_toNat_cond] at h ⊢
  split at h <;> omega

theorem toInt_add_of_nonneg {a b : BitVec 32} (ha : 0 ≤ a.toInt) (hb : 0 ≤ b.toInt)
    (hsum : a.toInt + b.toInt < 2 ^ 31) : (a + b).toInt = a.toInt + b.toInt := by
  rw [BitVec.toInt_add]
  exact Int.bmod_eq_of_le (by omega) (by omega)

section

variable {m : Memory} (hm : WellFormed m)
include hm

theorem extendTo_eq_addPages (n : Nat) :
    m.extendTo ((m.size + n) * pageSize) = m.addPages n := by
  have hwhole := hm.whole
  rw [extendTo, addPages, hwhole, Nat.add_mul, Nat.add_sub_cancel_left]

theorem size_addPages (n : Nat) : (m.addPages n).size = m.size + n := by
  rw [← extendTo_eq_addPages hm]
  exact size_extendTo_pages hm n

/-! ## One growth -/

theorem perform_of_exceeds {delta : BitVec 32} (h : m.Exceeds delta) :
    m.perform (.grow delta) = ⟨m, .ok (.grown (-1)), [m.refusal delta]⟩ := by
  have hmax := hm.maxPages_le
  unfold Exceeds at h
  unfold refusal
  simp only [perform, grow]
  by_cases hneg : delta.toInt < 0
  · rw [if_pos (.inl hneg), if_pos (.inl hneg)]
  · have hnat := toNat_of_toInt_nonneg (Int.not_lt.mp hneg)
    by_cases hlarge : pageLimit < delta.toNat
    · rw [if_pos (.inr hlarge), if_pos (.inr (by omega))]
    · rw [if_neg (by omega), if_pos (.inl (by omega)), if_neg (by omega)]

/-- No more than the maximum is within what 32 bits address too, so neither guard refuses. -/
theorem perform_of_not_exceeds {delta : BitVec 32} (h : ¬ m.Exceeds delta) :
    m.perform (.grow delta) =
      ⟨m.addPages delta.toNat, .ok (.grown m.size),
        [.memoryGrown m.size (m.size + delta.toNat)]⟩ := by
  have hmax := hm.maxPages_le
  unfold Exceeds at h
  have hnat := toNat_of_toInt_nonneg (x := delta) (by omega)
  simp only [perform, grow]
  rw [if_neg (by omega), if_neg (by omega), extendTo_eq_addPages hm]

theorem refused_of_exceeds {delta : BitVec 32} (h : m.Exceeds delta) : m.Refused delta := by
  have hperform := perform_of_exceeds hm h
  refine ⟨by rw [hperform], by rw [hperform], by rw [hperform], ?_, ?_⟩
  · unfold refusal
    split <;> rfl
  · unfold refusal
    split
    · exact .inl rfl
    · exact .inr rfl

theorem granted_of_not_exceeds {delta : BitVec 32} (h : ¬ m.Exceeds delta) : m.Granted delta := by
  have hperform := perform_of_not_exceeds hm h
  have hnat := toNat_of_toInt_nonneg (x := delta) (by unfold Exceeds at h; omega)
  refine ⟨by rw [hperform], by rw [hperform]; rfl, by rw [hperform]; rfl, ?_, ?_⟩
  · rw [hperform]
    exact size_addPages hm _
  · refine ⟨_, by rw [hperform], rfl, rfl, ?_⟩
    rw [← hnat]
    rfl

theorem granted_iff {delta : BitVec 32} : m.Granted delta ↔ ¬ m.Exceeds delta := by
  refine ⟨fun hgranted hover => ?_, granted_of_not_exceeds hm⟩
  have hanswers := (refused_of_exceeds hm hover).result.symm.trans hgranted.result
  injection hanswers with hanswer
  injection hanswer with hsize
  omega

theorem result_eq_neg_one_iff (delta : BitVec 32) :
    (m.perform (.grow delta)).result = .ok (.grown (-1)) ↔ m.Exceeds delta := by
  refine ⟨fun hresult => ?_, fun h => (refused_of_exceeds hm h).result⟩
  by_cases h : m.Exceeds delta
  · exact h
  · have hanswers := hresult.symm.trans (granted_of_not_exceeds hm h).result
    injection hanswers with hanswer
    injection hanswer with hsize
    omega

/-! ## Two growths in turn -/

theorem exceeds_grown_iff {a b : BitVec 32} (h : ¬ m.Exceeds a) (hb : 0 ≤ b.toInt) :
    (m.perform (.grow a)).state.Exceeds b ↔
      (m.maxPages : Int) < m.size + a.toInt + b.toInt := by
  have hgranted := granted_of_not_exceeds hm h
  have hnat := toNat_of_toInt_nonneg (x := a) (by unfold Exceeds at h; omega)
  unfold Exceeds
  rw [hgranted.maxPages, hgranted.size]
  omega

section

variable {a b : BitVec 32} (ha : 0 ≤ a.toInt) (hb : 0 ≤ b.toInt)
  (hsum : a.toInt + b.toInt < 2 ^ 31)
include ha hb hsum

theorem granted_add_iff :
    m.Granted a ∧ (m.perform (.grow a)).state.Granted b ↔ m.Granted (a + b) := by
  have hadd := toInt_add_of_nonneg ha hb hsum
  have hnext := wellFormed_perform hm (.grow a)
  rw [granted_iff hm, granted_iff hnext, granted_iff hm]
  constructor
  · rintro ⟨hfirst, hsecond⟩
    rw [exceeds_grown_iff hm hfirst hb] at hsecond
    unfold Exceeds
    omega
  · intro hboth
    have hfirst : ¬ m.Exceeds a := by
      unfold Exceeds at hboth ⊢
      omega
    rw [exceeds_grown_iff hm hfirst hb]
    unfold Exceeds at hboth
    exact ⟨hfirst, by omega⟩

/-- The zeros of the second growth stand behind those of the first. -/
theorem run_grow_grow (h : m.Granted (a + b)) :
    m.run [.grow a, .grow b] = m.run [.grow (a + b)] := by
  have hadd := toInt_add_of_nonneg ha hb hsum
  have hnats := toNat_of_toInt_nonneg (x := a + b) (by omega)
  have hnat := toNat_of_toInt_nonneg ha
  have hnat' := toNat_of_toInt_nonneg hb
  have hpages : (a + b).toNat = a.toNat + b.toNat := by omega
  obtain ⟨hfirst, hsecond⟩ := (granted_add_iff hm ha hb hsum).mpr h
  have hnext := wellFormed_perform hm (.grow a)
  rw [granted_iff hm] at hfirst h
  rw [granted_iff hnext] at hsecond
  calc m.run [.grow a, .grow b]
      = ((m.perform (.grow a)).state.perform (.grow b)).state := rfl
    _ = (m.perform (.grow a)).state.addPages b.toNat := by rw [perform_of_not_exceeds hnext hsecond]
    _ = m.addPages (a + b).toNat := by
        rw [perform_of_not_exceeds hm hfirst, addPages_addPages, hpages]
    _ = (m.perform (.grow (a + b))).state := by rw [perform_of_not_exceeds hm h]
    _ = m.run [.grow (a + b)] := rfl

end

end

/-- In every memory that exists, for every number of 32 bits with its sign. Growth answers -1
exactly if the number is negative or its sum with the size is, among the integers, beyond the
maximum. Then the memory is as it was and a rejection is traced; otherwise the old size is answered,
the bytes are the old ones and zeros for that many pages behind them, and the growth is reported.
One event is sent either way. Growing by two numbers in turn succeeds where growing by their sum
does, and leads to the same memory. -/
theorem growth_law {m : Memory} (hm : Reachable m) :
    (∀ delta, (m.perform (.grow delta)).result = .ok (.grown (-1)) ↔
      delta.toInt < 0 ∨ (m.maxPages : Int) < m.size + delta.toInt) ∧
    (∀ delta, (m.perform (.grow delta)).result = .ok (.grown (-1)) → m.Refused delta) ∧
    (∀ delta, (m.perform (.grow delta)).result ≠ .ok (.grown (-1)) → m.Granted delta) ∧
    (∀ a b : BitVec 32, 0 ≤ a.toInt → 0 ≤ b.toInt → a.toInt + b.toInt < 2 ^ 31 →
      (m.Granted a ∧ (m.perform (.grow a)).state.Granted b ↔ m.Granted (a + b)) ∧
      (m.Granted (a + b) → m.run [.grow a, .grow b] = m.run [.grow (a + b)])) := by
  have hwf := wellFormed_of_reachable hm
  refine ⟨result_eq_neg_one_iff hwf, ?_, ?_, ?_⟩
  · intro delta h
    exact refused_of_exceeds hwf ((result_eq_neg_one_iff hwf delta).mp h)
  · intro delta h
    exact granted_of_not_exceeds hwf (mt (result_eq_neg_one_iff hwf delta).mpr h)
  · intro a b ha hb hsum
    exact ⟨granted_add_iff hwf ha hb hsum, run_grow_grow hwf ha hb hsum⟩

/-- One page of at most three: two more are granted, at once or in turn; three are not, and minus
one, which without its sign is a word beyond all pages, is not. -/
theorem growth_of_one_page :
    Reachable (zeroed 1 3) ∧ (zeroed 1 3).Granted 2 ∧
      (zeroed 1 3).run [.grow 1, .grow 1] = (zeroed 1 3).run [.grow 2] ∧
      (zeroed 1 3).Refused 3 ∧ (zeroed 1 3).Refused (-1) := by
  have hm : Reachable (zeroed 1 3) := .allocate (show allocate 1 3 = .ok (zeroed 1 3) from rfl)
  obtain ⟨hanswer, hrefused, hgranted, hturns⟩ := growth_law hm
  have hsize : (zeroed 1 3).size = 1 := size_zeroed 1 3
  have hmax : (zeroed 1 3).maxPages = 3 := rfl
  have htwo : (zeroed 1 3).Granted 2 := by
    refine hgranted 2 ?_
    rw [ne_eq, hanswer, hsize, hmax]
    decide
  refine ⟨hm, htwo, (hturns 1 1 (by decide) (by decide) (by decide)).2 htwo, ?_, ?_⟩
  · refine hrefused 3 ((hanswer 3).mpr ?_)
    rw [hsize, hmax]
    decide
  · refine hrefused (-1) ((hanswer (-1)).mpr ?_)
    rw [hsize, hmax]
    decide

end Memory
end WasmHost
