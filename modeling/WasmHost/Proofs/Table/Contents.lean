import WasmHost.Proofs.Table.Run

/-!
# WasmHost.Proofs.Table.Contents

What a run of operations leaves in a slot, and how large the table then is. `put` says for one
operation what it puts into a slot; `lastPut` asks a whole run, the end of it first. The contents
follow by induction on the run, however segments, single slots and growth overlap and whichever
operations fail in between.

* `slot_perform`, `slot_run`: what a slot holds after one operation, and after a run.
* `sized_run`: the bounds that growth respects.
* `slots_hold_what_was_last_put`: all of it, for a table that was allocated.
-/

namespace WasmHost
namespace Table

/-- Whether the operation does what it says: it does not trap and is not a refused growth. -/
def succeeds (t : Table) (op : Op) : Bool :=
  match (t.perform op).result with
  | .ok (.grown result) => result ≠ -1
  | .ok _ => true
  | .error _ => false

/-- What the operation is to leave in slot `i` of a table of the given size, if it is to touch that
slot. Growth touches only the slots that it adds. -/
def Op.stored (size i : Nat) : Op → Option (Option Element)
  | .set index e => if i = index.toNat then some (some e) else none
  | .clear index => if i = index.toNat then some none else none
  | .init offset es => if offset.toNat ≤ i then es[i - offset.toNat]?.map some else none
  | .grow delta slot => if size ≤ i ∧ i < size + delta.toNat then some slot else none
  | .get _ | .callee .. => none

/-- What the operation puts into slot `i`, if it succeeds and touches that slot. -/
def put (t : Table) (i : Nat) (op : Op) : Option (Option Element) :=
  if t.succeeds op then op.stored t.size i else none

/-- What the last operation of a run that succeeds and touches slot `i` puts there. -/
def lastPut (t : Table) (i : Nat) : List Op → Option (Option Element)
  | [] => none
  | op :: ops => ((t.perform op).state.lastPut i ops).or (t.put i op)

/-- The index of an operation on a single slot that is read or written. -/
def Op.index? : Op → Option (BitVec 32)
  | .get index | .set index _ | .clear index => some index
  | .init .. | .grow .. | .callee .. => none

/-! ## One operation -/

section

variable (t : Table)

theorem written_set (index : BitVec 32) (slot : Option Element) :
    t.written (t.set index slot) =
      if index.toNat < t.size then
        ⟨{ t with slots := t.slots.setIfInBounds index.toNat slot }, .ok .done, []⟩
      else
        .fail t (.range (.tableIndex index.toNat t.size)) := by
  unfold set
  split
  · rfl
  · rfl

theorem written_init (offset : BitVec 32) (es : List Element) :
    t.written (t.init offset es) =
      if offset.toNat + es.length ≤ t.size then
        ⟨{ t with slots := fillSlots t.slots offset.toNat es }, .ok .done, []⟩
      else
        .fail t (.range (.tableIndex (Nat.min (offset.toNat + es.length - 1) (2 ^ 32 - 1))
          t.size)) := by
  simp only [init]
  by_cases hfits : offset.toNat + es.length ≤ t.size
  · rw [if_pos hfits, if_neg (Nat.not_lt.mpr hfits)]
    rfl
  · rw [if_neg hfits, if_pos (Nat.lt_of_not_le hfits)]
    rfl

/-- The sum of the sizes is within 32 bits whenever it is within the limit, so growth is refused
for the limit alone. -/
theorem perform_grow (delta : BitVec 32) (slot : Option Element) :
    t.perform (.grow delta slot) =
      if t.size + delta.toNat ≤ t.limit then
        ⟨t.extendTo (t.size + delta.toNat) slot, .ok (.grown t.size),
          [.tableGrown t.size (t.size + delta.toNat)]⟩
      else
        ⟨t, .ok (.grown (-1)), [.tableGrowRejected t.size delta.toNat t.limit]⟩ := by
  have hlimit : t.limit ≤ sizeLimit := Nat.min_le_right _ _
  have hword : sizeLimit < 2 ^ 32 := by decide
  simp only [perform, grow, Word.checkedAdd]
  by_cases hfits : t.size + delta.toNat ≤ t.limit
  · rw [if_pos hfits, if_pos (by omega), Option.filter_some, if_pos (by simpa using hfits)]
  · rw [if_neg hfits]
    by_cases hsum : t.size + delta.toNat < 2 ^ 32
    · rw [if_pos hsum, Option.filter_some, if_neg (by simpa using hfits)]
    · rw [if_neg hsum, Option.filter_none]

theorem succeeds_init_iff (offset : BitVec 32) (es : List Element) :
    t.succeeds (.init offset es) ↔ offset.toNat + es.length ≤ t.size := by
  unfold succeeds
  rw [perform, written_init]
  by_cases hfits : offset.toNat + es.length ≤ t.size
  · simp [hfits]
  · simp [hfits, Outcome.fail]

theorem succeeds_grow_iff (delta : BitVec 32) (slot : Option Element) :
    t.succeeds (.grow delta slot) ↔ t.size + delta.toNat ≤ t.limit := by
  unfold succeeds
  rw [perform_grow]
  by_cases hfits : t.size + delta.toNat ≤ t.limit
  · have hsize : (t.size : Int) ≠ -1 := by omega
    simp [hfits, hsize]
  · simp [hfits]

/-- A slot that is replaced holds the new contents, and the others hold the old. -/
theorem getElem?_replaced {j : Nat} (hj : j < t.size) (slot : Option Element) (i : Nat) :
    (t.slots.setIfInBounds j slot)[i]? =
      (if i = j then some slot else none).or t.slots[i]? := by
  rw [Array.getElem?_setIfInBounds]
  by_cases hij : i = j
  · subst hij
    have hi : i < t.slots.size := hj
    rw [if_pos rfl, if_pos hi, if_pos rfl, Option.some_or]
  · rw [if_neg (Ne.symm hij), if_neg hij, Option.none_or]

end

variable {t : Table} {op : Op} {index : BitVec 32}

/-- An operation on a slot behind the end traps, whether it reads or writes, and tells the index and
the size. -/
theorem perform_of_size_le (hop : op.index? = some index) (hle : t.size ≤ index.toNat) :
    t.perform op = .fail t (.range (.tableIndex index.toNat t.size)) := by
  have hwritten : ∀ slot, t.written (t.set index slot) =
      .fail t (.range (.tableIndex index.toNat t.size)) := by
    intro slot
    rw [written_set, if_neg (Nat.not_lt.mpr hle)]
  cases op with
  | get i =>
    cases hop
    have hget : t.get index = .error (.range (.tableIndex index.toNat t.size)) := by
      unfold get
      rw [Array.getElem?_eq_none hle]
    rw [perform, hget]
    rfl
  | set i e =>
    cases hop
    exact hwritten (some e)
  | clear i =>
    cases hop
    exact hwritten none
  | init offset es => cases hop
  | grow delta slot => cases hop
  | callee id i => cases hop

theorem succeeds_iff_of_index (hop : op.index? = some index) :
    t.succeeds op ↔ index.toNat < t.size := by
  constructor
  · intro hok
    refine Nat.lt_of_not_le fun hle => ?_
    simp [succeeds, perform_of_size_le hop hle, Outcome.fail] at hok
  · intro hlt
    have hwritten : ∀ slot, (t.written (t.set index slot)).result = .ok .done := by
      intro slot
      rw [written_set, if_pos hlt]
    cases op with
    | get i =>
      cases hop
      have hget : t.get index = .ok t.slots[index.toNat] :=
        get_eq_ok_iff.mpr (Array.getElem?_eq_getElem hlt)
      simp [succeeds, perform, hget, Except.map]
    | set i e =>
      cases hop
      simp [succeeds, perform, hwritten]
    | clear i =>
      cases hop
      simp [succeeds, perform, hwritten]
    | init offset es => cases hop
    | grow delta slot => cases hop
    | callee id i => cases hop

/-- Whatever fails leaves the whole table as it was. -/
theorem state_of_not_succeeds (h : ¬ t.succeeds op) : (t.perform op).state = t := by
  cases op with
  | get i => rfl
  | callee id i => rfl
  | set i e =>
    rw [succeeds_iff_of_index rfl] at h
    rw [perform, written_set, if_neg h]
    rfl
  | clear i =>
    rw [succeeds_iff_of_index rfl] at h
    rw [perform, written_set, if_neg h]
    rfl
  | init offset es =>
    rw [succeeds_init_iff] at h
    rw [perform, written_init, if_neg h]
    rfl
  | grow delta slot =>
    rw [succeeds_grow_iff] at h
    rw [perform_grow, if_neg h]

/-- What a slot holds after an operation: what was put there, or else what it held before. -/
theorem slot_perform (t : Table) (op : Op) (i : Nat) :
    (t.perform op).state.slots[i]? = (t.put i op).or t.slots[i]? := by
  unfold put
  by_cases hok : t.succeeds op
  · rw [if_pos hok]
    cases op with
    | get j => rfl
    | callee id j => rfl
    | set j e =>
      rw [succeeds_iff_of_index rfl] at hok
      rw [perform, written_set, if_pos hok]
      exact getElem?_replaced t hok (some e) i
    | clear j =>
      rw [succeeds_iff_of_index rfl] at hok
      rw [perform, written_set, if_pos hok]
      exact getElem?_replaced t hok none i
    | init offset es =>
      rw [succeeds_init_iff] at hok
      rw [perform, written_init, if_pos hok, Op.stored, getElem?_fillSlots _ _ _ hok]
      by_cases hle : offset.toNat ≤ i
      · by_cases hlt : i < offset.toNat + es.length
        · have hin : i - offset.toNat < es.length := by omega
          simp [hle, hlt, hin]
        · have hout : es.length ≤ i - offset.toNat := by omega
          simp [hlt, hout]
      · simp [hle]
    | grow delta slot =>
      rw [succeeds_grow_iff] at hok
      rw [perform_grow, if_pos hok, Op.stored, getElem?_extendTo]
      by_cases hold : i < t.size
      · rw [if_pos hold, if_neg (by omega), Option.none_or]
      · have hnone : t.slots[i]? = none := Array.getElem?_eq_none (Nat.le_of_not_lt hold)
        by_cases hnew : i < t.size + delta.toNat
        · rw [if_neg hold, if_pos hnew, if_pos ⟨Nat.le_of_not_lt hold, hnew⟩, Option.some_or]
        · rw [if_neg hold, if_neg hnew, if_neg (fun h => hnew h.2), hnone, Option.none_or]
  · rw [if_neg hok, state_of_not_succeeds hok, Option.none_or]

/-- A table within its limit, of the declared maximum `max`. -/
structure Sized (max : Nat) (t : Table) : Prop where
  maxLength_eq : t.maxLength = max
  size_le : t.size ≤ Nat.min max sizeLimit

theorem sized_empty {length max : Nat} (hmax : length ≤ max) (hsize : length ≤ sizeLimit) :
    Sized max (empty length max) := by
  refine ⟨rfl, ?_⟩
  rw [size_empty]
  exact Nat.le_min.mpr ⟨hmax, hsize⟩

/-- No table has a size of more than 31 bits. -/
theorem Sized.size_lt {max : Nat} (h : Sized max t) : t.size < 2 ^ 31 := by
  have hlimit := Nat.le_trans h.size_le (Nat.min_le_right max sizeLimit)
  exact Nat.lt_of_le_of_lt hlimit (by decide)

/-- Only growth changes the size, and it checks the limit first. -/
theorem size_perform_cases (t : Table) (op : Op) :
    (t.perform op).state.maxLength = t.maxLength ∧
      ((t.perform op).state.size = t.size ∨
        t.size ≤ (t.perform op).state.size ∧ (t.perform op).state.size ≤ t.limit) := by
  by_cases hok : t.succeeds op
  · cases op with
    | get i => exact ⟨rfl, .inl rfl⟩
    | callee id i => exact ⟨rfl, .inl rfl⟩
    | set i e =>
      rw [succeeds_iff_of_index rfl] at hok
      rw [perform, written_set, if_pos hok]
      exact ⟨rfl, .inl Array.size_setIfInBounds⟩
    | clear i =>
      rw [succeeds_iff_of_index rfl] at hok
      rw [perform, written_set, if_pos hok]
      exact ⟨rfl, .inl Array.size_setIfInBounds⟩
    | init offset es =>
      rw [succeeds_init_iff] at hok
      rw [perform, written_init, if_pos hok]
      exact ⟨rfl, .inl (size_fillSlots _ _ _)⟩
    | grow delta slot =>
      rw [succeeds_grow_iff] at hok
      have hsize := size_extendTo t (Nat.le_add_right t.size delta.toNat) slot
      rw [perform_grow, if_pos hok]
      refine ⟨rfl, .inr ?_⟩
      show t.size ≤ (t.extendTo (t.size + delta.toNat) slot).size ∧ _ ≤ t.limit
      rw [hsize]
      exact ⟨Nat.le_add_right _ _, hok⟩
  · rw [state_of_not_succeeds hok]
    exact ⟨rfl, .inl rfl⟩

theorem size_le_perform (t : Table) (op : Op) : t.size ≤ (t.perform op).state.size := by
  obtain ⟨_, hsize | ⟨hsize, _⟩⟩ := size_perform_cases t op
  · exact Nat.le_of_eq hsize.symm
  · exact hsize

theorem Sized.perform {max : Nat} (h : Sized max t) (op : Op) :
    Sized max (t.perform op).state := by
  obtain ⟨hmax, hsize⟩ := size_perform_cases t op
  refine ⟨hmax.trans h.maxLength_eq, ?_⟩
  rcases hsize with hsize | ⟨_, hle⟩
  · rw [hsize]
    exact h.size_le
  · rw [limit, h.maxLength_eq] at hle
    exact hle

/-! ## Tables that exist -/

/-- The tables that exist: made by an allocation and then worked on. -/
inductive Reachable : Table → Prop
  | allocate {length max : Nat} {t : Table} : Table.allocate length max = .ok t → Reachable t
  | perform {t : Table} (op : Op) : Reachable t → Reachable (t.perform op).state

theorem sized_of_reachable {t : Table} (h : Reachable t) : ∃ max, Sized max t := by
  induction h with
  | @allocate length max t hmade =>
    obtain ⟨hmax, hsize, rfl⟩ := allocate_eq_ok_iff.mp hmade
    exact ⟨max, sized_empty hmax hsize⟩
  | perform op _ ih =>
    obtain ⟨max, hsized⟩ := ih
    exact ⟨max, hsized.perform op⟩

/-! ## Runs -/

theorem run_append (t : Table) (ops more : List Op) :
    t.run (ops ++ more) = (t.run ops).run more := List.foldl_append

/-- What a slot holds after a run: what was put there last, or else what it held before. -/
theorem slot_run (t : Table) (ops : List Op) (i : Nat) :
    (t.run ops).slots[i]? = (t.lastPut i ops).or t.slots[i]? := by
  induction ops generalizing t with
  | nil => rfl
  | cons op ops ih =>
    have hrun : t.run (op :: ops) = (t.perform op).state.run ops := rfl
    rw [hrun, ih, slot_perform, lastPut, Option.or_assoc]

theorem size_le_run (t : Table) (ops : List Op) : t.size ≤ (t.run ops).size := by
  induction ops generalizing t with
  | nil => exact Nat.le_refl _
  | cons op ops ih => exact Nat.le_trans (size_le_perform t op) (ih _)

theorem sized_run {max : Nat} (h : Sized max t) (ops : List Op) : Sized max (t.run ops) := by
  induction ops generalizing t with
  | nil => exact h
  | cons op ops ih => exact ih (h.perform op)

theorem get_run_empty {length max : Nat} (ops : List Op)
    (hlt : index.toNat < ((empty length max).run ops).size) :
    ((empty length max).run ops).get index =
      .ok (((empty length max).lastPut index.toNat ops).getD none) := by
  have hslot := slot_run (empty length max) ops index.toNat
  rw [get_eq_ok_iff]
  cases hput : (empty length max).lastPut index.toNat ops with
  | some slot =>
    rw [hput] at hslot
    exact hslot
  | none =>
    -- nothing was put there, so the slot is one of those that the allocation made
    rw [hput, Option.none_or, Array.getElem?_eq_getElem hlt] at hslot
    rw [Array.getElem?_eq_getElem hlt, slot_of_empty hslot.symm]
    rfl

/-- What `made`, allocated with the maximum `max`, has come to at the end of a run. -/
structure HoldsLastPut (max : Nat) (made : Table) (ops : List Op) : Prop where
  sized : Sized max (made.run ops)
  grows : ∀ more, (made.run ops).size ≤ (made.run (ops ++ more)).size
  /-- A slot is read and written exactly if it is in the table. -/
  within : ∀ op index, op.index? = some index →
    ((made.run ops).succeeds op ↔ index.toNat < (made.run ops).size)
  outside : ∀ op index, op.index? = some index → (made.run ops).size ≤ index.toNat →
    ((made.run ops).perform op).result =
      .error (.range (.tableIndex index.toNat (made.run ops).size))
  segment : ∀ offset es,
    (made.run ops).succeeds (.init offset es) ↔ offset.toNat + es.length ≤ (made.run ops).size
  growth : ∀ delta slot, (made.run ops).succeeds (.grow delta slot) ↔
    (made.run ops).size + delta.toNat ≤ Nat.min max sizeLimit
  /-- A slot into which nothing was put is empty. -/
  contents : ∀ index : BitVec 32, index.toNat < (made.run ops).size →
    (made.run ops).get index = .ok ((made.lastPut index.toNat ops).getD none)
  failed : ∀ op, ¬ (made.run ops).succeeds op → ((made.run ops).perform op).state = made.run ops
  read : ∀ index, ((made.run ops).perform (.get index)).state = made.run ops
  called : ∀ id index, ((made.run ops).perform (.callee id index)).state = made.run ops

theorem holdsLastPut_of_allocate {length max : Nat} {made : Table}
    (hmade : allocate length max = .ok made) (ops : List Op) : HoldsLastPut max made ops := by
  obtain ⟨hmax, hsize, rfl⟩ := allocate_eq_ok_iff.mp hmade
  have hrun := sized_run (sized_empty hmax hsize) ops
  constructor
  case sized => exact hrun
  case grows =>
    intro more
    rw [run_append]
    exact size_le_run _ more
  case within =>
    intro op index hop
    exact succeeds_iff_of_index hop
  case outside =>
    intro op index hop hle
    rw [perform_of_size_le hop hle]
    rfl
  case segment => exact succeeds_init_iff _
  case growth =>
    intro delta slot
    rw [succeeds_grow_iff, limit, hrun.maxLength_eq]
  case contents =>
    intro index hlt
    exact get_run_empty ops hlt
  case failed =>
    intro op h
    exact state_of_not_succeeds h
  case read => exact fun _ => rfl
  case called => exact fun _ _ => rfl

/-- A table is made if its length is within the maximum and within the limit. Whatever is done with
it then, it never shrinks and stays within both, a slot of it holds what the last operation that
succeeded and touched it put there, and nothing that fails changes it. -/
theorem slots_hold_what_was_last_put (length max : Nat) :
    ((∃ made, allocate length max = .ok made) ↔ length ≤ max ∧ length ≤ sizeLimit) ∧
      ∀ made, allocate length max = .ok made → ∀ ops, HoldsLastPut max made ops := by
  constructor
  · constructor
    · rintro ⟨made, hmade⟩
      obtain ⟨hmax, hsize, _⟩ := allocate_eq_ok_iff.mp hmade
      exact ⟨hmax, hsize⟩
    · rintro ⟨hmax, hsize⟩
      exact ⟨_, allocate_eq_ok_iff.mpr ⟨hmax, hsize, rfl⟩⟩
  · intro made hmade ops
    exact holdsLastPut_of_allocate hmade ops

/-- Elements told apart by their functions. -/
def element (n : Nat) : Element := ⟨⟨0⟩, ⟨n⟩⟩

/-- Two segments and a growth overlap, one slot is emptied, and a segment that hangs over the end
and a growth beyond the maximum are refused. -/
def overlapping : List Op :=
  [.init 0 [element 1, element 2], .grow 2 (some (element 3)), .init 1 [element 4, element 5],
    .clear 0, .init 2 [element 6, element 7, element 8], .grow 2 none]

theorem contents_of_overlapping :
    allocate 2 5 = .ok (empty 2 5) ∧ ((empty 2 5).run overlapping).size = 4 ∧
      ((empty 2 5).run overlapping).get 0 = .ok none ∧
      ((empty 2 5).run overlapping).get 2 = .ok (some (element 5)) ∧
      ((empty 2 5).run overlapping).get 3 = .ok (some (element 3)) ∧
      ((empty 2 5).run overlapping).maxLength = 5 := by
  have hmade : allocate 2 5 = .ok (empty 2 5) := rfl
  have hsize : ((empty 2 5).run overlapping).size = 4 := rfl
  have hholds := (slots_hold_what_was_last_put 2 5).2 _ hmade overlapping
  refine ⟨hmade, hsize, ?_, ?_, ?_, hholds.sized.maxLength_eq⟩
  · exact hholds.contents 0 (by rw [hsize]; decide)
  · exact hholds.contents 2 (by rw [hsize]; decide)
  · exact hholds.contents 3 (by rw [hsize]; decide)

end Table
end WasmHost
