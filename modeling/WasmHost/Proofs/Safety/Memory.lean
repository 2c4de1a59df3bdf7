import WasmHost.Proofs.Memory.Size
import WasmHost.Proofs.Safety.Step

/-!
# WasmHost.Proofs.Safety.Memory

The operations on a memory, taken one step of the host after the other. On every memory that can
come about none of these steps stops, and the answer is that of the operation.

* `strictSpan_eq`: the bounds check, on any memory.
* `strictAccess_eq`: an access stops nowhere if its steps are defined on all ranges in bounds.
* `strictGrow_eq`: growth, which needs whole pages and no more of them than 32 bits address.
* `strictPerform_eq`, `strictRun_eq`: every operation, and a run of them.
-/

namespace WasmHost
namespace Memory

/-! ## The steps -/

def strictAllocate (initial max : BitVec 32) : Option (Except LinkError Memory) :=
  if pageLimit < max.toNat then
    return .error (.invalidLimits (.memoryMaximum max.toNat pageLimit))
  else if max.toNat < initial.toNat then
    return .error (.invalidLimits (.memoryInitial initial.toNat max.toNat))
  else do
    let len ← Host.mul 64 initial.toNat pageSize
    return .ok ⟨zeros len, max.toNat⟩

/-- The size as a word of 32 bits. -/
def strictSize (m : Memory) : Nat := Host.cast 32 (m.byteLen / pageSize)

/-- The range of an access. The width is added where the sum is a word, and only there. -/
def strictSpan (m : Memory) (position offset : BitVec 32) (width : Nat) :
    Option (Except Trap (Nat × Nat)) := do
  let address ← Host.add 64 position.toNat offset.toNat
  if 2 ^ 32 - 1 < address then
    return .error (.range (.addressOverflow position.toNat offset.toNat))
  else
    match Word.checkedAdd 64 address width with
    | none => return .error (.range (.outOfBounds address width m.byteLen))
    | some stop =>
      if stop ≤ m.byteLen then
        return .ok (address, stop)
      else
        return .error (.range (.outOfBounds address width m.byteLen))

/-- Goes on with the range of an access if that is in bounds. -/
def strictAccess {α : Type} (m : Memory) (position offset : BitVec 32) (width : Nat)
    (next : Nat → Nat → Option α) : Option (Except Trap α) := do
  match ← m.strictSpan position offset width with
  | .error t => return .error t
  | .ok (start, stop) => return .ok (← next start stop)

def strictRead (m : Memory) (position offset : BitVec 32) (width : Nat) :
    Option (Except Trap ByteArray) :=
  m.strictAccess position offset width fun start stop => Host.slice m.bytes start stop

def strictLoad (m : Memory) (k : LoadKind) (position offset : BitVec 32) :
    Option (Except Trap Value) :=
  m.strictAccess position offset k.bytesRead fun start stop => do
    let b ← Host.slice m.bytes start stop
    return k.value (← Host.decode k.bytesRead b)

def strictWrite (m : Memory) (position offset : BitVec 32) (b : ByteArray) :
    Option (Except Trap Memory) :=
  m.strictAccess position offset b.size fun start stop => do
    return { m with bytes := ← Host.overwrite m.bytes start stop b }

def strictStore (m : Memory) (k : StoreKind) (position offset : BitVec 32) (v : Value) :
    Option (Except Trap Memory) :=
  m.strictAccess position offset k.bytesWritten fun start stop => do
    let encoded := ⟨(LittleEndian.encode k.bytesWritten v.bits).toArray⟩
    return { m with bytes := ← Host.overwrite m.bytes start stop encoded }

def strictPut (m : Memory) (position : BitVec 32) (b : ByteArray) :
    Option (Except Trap Memory) :=
  m.strictAccess position 0 b.size fun start stop => do
    return { m with bytes := ← Host.overwrite m.bytes start stop b }

def strictFill (m : Memory) (dst : BitVec 32) (value : UInt8) (len : BitVec 32) :
    Option (Except Trap Memory) :=
  m.strictAccess dst 0 len.toNat fun start stop => do
    let filled := ⟨Array.replicate (← Host.sub stop start) value⟩
    return { m with bytes := ← Host.overwrite m.bytes start stop filled }

def strictCopy (m : Memory) (dst src len : BitVec 32) : Option (Except Trap Memory) := do
  match ← m.strictSpan src 0 len.toNat with
  | .error t => return .error t
  | .ok (start, stop) =>
    m.strictAccess dst 0 len.toNat fun target _ => do
      return { m with bytes := ← Host.copyWithin m.bytes start stop target }

def strictGrow (m : Memory) (delta : BitVec 32) : Option (Memory × Int × Event) :=
  let oldPages := m.strictSize
  if delta.toInt < 0 ∨ pageLimit < delta.toNat then
    return (m, -1, .memoryDeltaRejected delta.toInt)
  else do
    let newPages ← Host.add 32 oldPages delta.toNat
    if m.maxPages < newPages ∨ pageLimit < newPages then
      return (m, -1, .memoryGrowRejected oldPages delta.toInt m.maxPages)
    else
      let newLen ← Host.mul 64 newPages pageSize
      let added ← Host.sub newLen m.byteLen
      return ({ m with bytes := m.bytes ++ zeros added }, Host.signedCast 32 oldPages,
        .memoryGrown oldPages newPages)

def strictPerform (m : Memory) : Op → Option (Outcome Memory Trap Answer)
  | .load k position offset => do
    return ⟨m, (← m.strictLoad k position offset).map .value, []⟩
  | .store k position offset v => do return m.written (← m.strictStore k position offset v)
  | .read position len => do return ⟨m, (← m.strictRead position 0 len).map .bytes, []⟩
  | .write position b => do return m.written (← m.strictWrite position 0 b)
  | .put position b => do return m.written (← m.strictPut position b)
  | .fill dst value len => do return m.written (← m.strictFill dst value len)
  | .copy dst src len => do return m.written (← m.strictCopy dst src len)
  | .grow delta => do
    let (m', result, event) ← m.strictGrow delta
    return ⟨m', .ok (.grown result), [event]⟩

def strictRun (m : Memory) : List Op → Option Memory
  | [] => some m
  | op :: ops => do
    let o ← m.strictPerform op
    o.state.strictRun ops

/-! ## No step stops -/

theorem strictAllocate_eq (initial max : BitVec 32) :
    strictAllocate initial max = some (allocate initial.toNat max.toNat) := by
  have hinitial := initial.isLt
  have hlen : initial.toNat * pageSize < 2 ^ 64 := by
    unfold pageSize
    omega
  unfold strictAllocate allocate
  rw [Host.mul_of_lt hlen]
  split
  · rfl
  · split <;> rfl

section

variable (m : Memory)

/-- Both words have 32 bits, so their sum has no more than 33. -/
theorem strictSpan_eq (position offset : BitVec 32) (width : Nat) :
    m.strictSpan position offset width =
      some ((m.span position offset width).map fun start => (start, start + width)) := by
  have hposition := position.isLt
  have hoffset := offset.isLt
  have hsum : position.toNat + offset.toNat < 2 ^ 64 := by omega
  simp only [strictSpan, span, Host.add_of_lt hsum, address_overflows_iff, toNat_address,
    Option.bind_eq_bind, Option.bind_some]
  split
  · rfl
  · cases hstop : Word.checkedAdd 64 (position.toNat + offset.toNat) width with
    | none => rfl
    | some stop =>
      obtain ⟨rfl, _⟩ := Word.checkedAdd_eq_some_iff.mp hstop
      simp only
      split <;> rfl

variable {m}

theorem strictAccess_eq {α : Type} {position offset : BitVec 32} {width : Nat}
    {next : Nat → Nat → Option α} {f : Nat → α}
    (hnext : ∀ start, start + width ≤ m.byteLen → next start (start + width) = some (f start)) :
    m.strictAccess position offset width next = some ((m.span position offset width).map f) := by
  rw [strictAccess, strictSpan_eq]
  cases hspan : m.span position offset width with
  | error t => rfl
  | ok start =>
    obtain ⟨rfl, hle⟩ := bounds_of_span hspan
    change (next _ _).bind _ = _
    rw [hnext _ hle]
    rfl

theorem slice_in_bounds {start width : Nat} (hle : start + width ≤ m.byteLen) :
    Host.slice m.bytes start (start + width) = some (m.slice start width) :=
  Host.slice_of_le (Nat.le_add_right _ _) hle

theorem strictRead_eq (position offset : BitVec 32) (width : Nat) :
    m.strictRead position offset width = some (m.read position offset width) := by
  rw [strictRead, strictAccess_eq fun start hle => slice_in_bounds hle, read]
  cases m.span position offset width <;> rfl

theorem strictLoad_eq (k : LoadKind) (position offset : BitVec 32) :
    m.strictLoad k position offset = some (m.load k position offset) := by
  have hvalue : ∀ start, start + k.width ≤ m.byteLen →
      ((Host.slice m.bytes start (start + k.width)).bind fun b =>
        (Host.decode k.width b).bind fun n => some (k.value n)) =
      some (k.value (LittleEndian.decode (m.slice start k.width).data.toList)) := by
    intro start hle
    rw [slice_in_bounds hle, Option.bind_some, Host.decode_of_size (size_slice hle),
      Option.bind_some]
  rw [strictLoad, ← k.width_eq_bytesRead, load, read]
  refine (strictAccess_eq hvalue).trans ?_
  cases m.span position offset k.width <;> rfl

/-- Bytes written over a range that is as long. -/
theorem overwrite_eq_splice {start : Nat} {b : ByteArray} (hle : start + b.size ≤ m.byteLen) :
    ((Host.overwrite m.bytes start (start + b.size) b).bind fun bytes =>
      some { m with bytes := bytes }) = some (m.splice start b) := by
  rw [Host.overwrite_of_size hle]
  rfl

theorem strictWrite_eq (position offset : BitVec 32) (b : ByteArray) :
    m.strictWrite position offset b = some (m.write position offset b) := by
  rw [strictWrite, write]
  refine (strictAccess_eq fun start hle => overwrite_eq_splice hle).trans ?_
  cases m.span position offset b.size <;> rfl

theorem strictPut_eq (position : BitVec 32) (b : ByteArray) :
    m.strictPut position b = some (m.put position b) := by
  rw [put_eq_write]
  exact strictWrite_eq position 0 b

theorem strictStore_eq (k : StoreKind) (position offset : BitVec 32) (v : Value) :
    m.strictStore k position offset v = some (m.store k position offset v) := by
  have hsize := size_encoded k v
  have hstore : m.strictStore k position offset v =
      m.strictWrite position offset ⟨(LittleEndian.encode k.width v.bits).toArray⟩ := by
    rw [strictStore, strictWrite, ← k.width_eq_bytesWritten, hsize]
  rw [hstore, strictWrite_eq, store]

theorem strictFill_eq (dst : BitVec 32) (value : UInt8) (len : BitVec 32) :
    m.strictFill dst value len = some (m.fill dst value len) := by
  have hfill : ∀ start, start + len.toNat ≤ m.byteLen →
      ((Host.sub (start + len.toNat) start).bind fun count =>
        (Host.overwrite m.bytes start (start + len.toNat) ⟨Array.replicate count value⟩).bind
          fun bytes => some { m with bytes := bytes }) =
      some (m.splice start ⟨Array.replicate len.toNat value⟩) := by
    intro start hle
    have hsize := size_filled value len.toNat
    rw [Host.sub_of_le (Nat.le_add_right _ _), Option.bind_some, Nat.add_sub_cancel_left]
    rw [← hsize] at hle
    have hsplice := overwrite_eq_splice hle
    rw [hsize] at hsplice
    exact hsplice
  rw [strictFill, fill]
  refine (strictAccess_eq hfill).trans ?_
  cases m.span dst 0 len.toNat <;> rfl

theorem strictCopy_eq (dst src len : BitVec 32) :
    m.strictCopy dst src len = some (m.copy dst src len) := by
  rw [strictCopy, strictSpan_eq, copy]
  cases hsrc : m.span src 0 len.toNat with
  | error t => rfl
  | ok start =>
    obtain ⟨hstart, hsource⟩ := bounds_of_span hsrc
    rw [← hstart] at hsource
    have hcopy : ∀ target, target + len.toNat ≤ m.byteLen →
        ((Host.copyWithin m.bytes start (start + len.toNat) target).bind fun bytes =>
          some { m with bytes := bytes }) =
        some (m.splice target (m.slice start len.toNat)) := by
      intro target htarget
      rw [Host.copyWithin_of_le hsource htarget, splice, size_slice hsource]
      rfl
    refine (strictAccess_eq hcopy).trans ?_
    cases m.span dst 0 len.toNat <;> rfl

theorem strictSize_eq (hm : WellFormed m) : m.strictSize = m.size := by
  have hsize := size_le_of_wellFormed hm
  exact Host.cast_of_lt (Nat.lt_of_le_of_lt hsize (by decide))

/-- The sum of pages is a word because both are at most as many as 32 bits address, and the
difference of lengths is no less than zero because the memory has whole pages. -/
theorem strictGrow_eq (hm : WellFormed m) (delta : BitVec 32) :
    m.strictGrow delta = some (m.grow delta) := by
  have hsize := size_le_of_wellFormed hm
  have hwhole : m.byteLen = m.size * pageSize := hm.whole
  unfold strictGrow grow
  simp only [strictSize_eq hm]
  split
  · rfl
  · rename_i hdelta
    have hpages : m.size + delta.toNat < 2 ^ 32 := by
      unfold pageLimit at hdelta
      omega
    simp only [Host.add_of_lt hpages, Option.bind_eq_bind, Option.bind_some]
    split
    · rfl
    · rename_i hmax
      have hlen : (m.size + delta.toNat) * pageSize < 2 ^ 64 := by
        unfold pageLimit at hmax
        unfold pageSize
        omega
      have hle : m.byteLen ≤ (m.size + delta.toNat) * pageSize := by
        rw [hwhole]
        exact Nat.mul_le_mul_right _ (Nat.le_add_right _ _)
      have hanswer : Host.signedCast 32 m.size = (m.size : Int) :=
        Host.signedCast_of_lt (by omega)
      rw [Host.mul_of_lt hlen, Option.bind_some, Host.sub_of_le hle, Option.bind_some, hanswer]
      rfl

theorem strictPerform_eq (hm : WellFormed m) (op : Op) :
    m.strictPerform op = some (m.perform op) := by
  cases op with
  | load k position offset => rw [strictPerform, strictLoad_eq]; rfl
  | store k position offset v => rw [strictPerform, strictStore_eq]; rfl
  | read position len => rw [strictPerform, strictRead_eq]; rfl
  | write position b => rw [strictPerform, strictWrite_eq]; rfl
  | put position b => rw [strictPerform, strictPut_eq]; rfl
  | fill dst value len => rw [strictPerform, strictFill_eq]; rfl
  | copy dst src len => rw [strictPerform, strictCopy_eq]; rfl
  | grow delta => rw [strictPerform, strictGrow_eq hm]; rfl

theorem strictRun_eq (hm : WellFormed m) (ops : List Op) : m.strictRun ops = some (m.run ops) := by
  induction ops generalizing m with
  | nil => rfl
  | cons op ops ih =>
    have hstep : m.strictRun (op :: ops) =
        (m.strictPerform op).bind fun o => o.state.strictRun ops := rfl
    rw [hstep, strictPerform_eq hm, Option.bind_some, ih (wellFormed_perform hm op), run_cons]

/-- The invariant is needed: from a length that is no number of whole pages, growth by none would
subtract more than there is. -/
example : (⟨zeros 100, 1⟩ : Memory).strictGrow 0 = none := by decide

end

end Memory
end WasmHost
