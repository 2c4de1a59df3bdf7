import WasmHost.Outcome
import WasmHost.Word

/-!
# WasmHost.Memory.Basic

Linear memory: bytes in whole pages, with a declared maximum. Every access goes through one
bounds check. It adds position and offset as words of 64 bits, and the width to their sum only
where the result has no more bits than that.

The bytes asked for are always granted. A host that is refused them fails an allocation with invalid
limits, and answers a growth with -1 and an event of its own; neither can come about here.
-/

namespace WasmHost

structure Memory where
  bytes : ByteArray
  maxPages : Nat

namespace Memory

def pageSize : Nat := 65536

/-- Pages that 32 bits address. -/
def pageLimit : Nat := 65536

/-- Bytes that 32 bits address. -/
def byteLimit : Nat := pageLimit * pageSize

def zeros (n : Nat) : ByteArray := ⟨Array.replicate n 0⟩

def zeroed (pages max : Nat) : Memory := ⟨zeros (pages * pageSize), max⟩

instance : Inhabited Memory := ⟨zeroed 0 0⟩

/-- A memory of zero pages, if the limits allow it. -/
def allocate (initial max : Nat) : Except LinkError Memory :=
  if pageLimit < max then
    .error (.invalidLimits (.memoryMaximum max pageLimit))
  else if max < initial then
    .error (.invalidLimits (.memoryInitial initial max))
  else
    .ok (zeroed initial max)

def byteLen (m : Memory) : Nat := m.bytes.size

/-- The size in pages. -/
def size (m : Memory) : Nat := m.byteLen / pageSize

/-- The byte at an address, zero behind the end. -/
def byteAt (m : Memory) (a : Nat) : UInt8 := (m.bytes[a]?).getD 0

/-- The first address of an access, if all its bytes are in the memory. The sum of position and
offset must itself be a 32-bit address, also for an access of no bytes. -/
def span (m : Memory) (position offset : BitVec 32) (width : Nat) : Except Trap Nat :=
  let address : BitVec 64 := position.setWidth 64 + offset.setWidth 64
  if (BitVec.allOnes 32).setWidth 64 < address then
    .error (.range (.addressOverflow position.toNat offset.toNat))
  else
    match Word.checkedAdd 64 address.toNat width with
    | none => .error (.range (.outOfBounds address.toNat width m.byteLen))
    | some stop =>
      if stop ≤ m.byteLen then
        .ok address.toNat
      else
        .error (.range (.outOfBounds address.toNat width m.byteLen))

def slice (m : Memory) (start width : Nat) : ByteArray := m.bytes.extract start (start + width)

/-- The memory with bytes written over those from `start` on. -/
def splice (m : Memory) (start : Nat) (b : ByteArray) : Memory :=
  { m with bytes := b.copySlice 0 m.bytes start b.size }

def read (m : Memory) (position offset : BitVec 32) (width : Nat) : Except Trap ByteArray :=
  match m.span position offset width with
  | .ok start => .ok (m.slice start width)
  | .error t => .error t

def write (m : Memory) (position offset : BitVec 32) (b : ByteArray) : Except Trap Memory :=
  match m.span position offset b.size with
  | .ok start => .ok (m.splice start b)
  | .error t => .error t

/-- Puts a data segment in place, at an address that is checked as any other. -/
def put (m : Memory) (position : BitVec 32) (b : ByteArray) : Except Trap Memory :=
  match m.span position 0 b.size with
  | .ok start => .ok (m.splice start b)
  | .error t => .error t

theorem put_eq_write (m : Memory) (position : BitVec 32) (b : ByteArray) :
    m.put position b = m.write position 0 b := rfl

def fill (m : Memory) (dst : BitVec 32) (value : UInt8) (len : BitVec 32) : Except Trap Memory :=
  match m.span dst 0 len.toNat with
  | .ok start => .ok (m.splice start ⟨Array.replicate len.toNat value⟩)
  | .error t => .error t

/-- Both ranges are checked first, the source before the destination. The bytes written are those
the source held before, also where the ranges overlap. -/
def copy (m : Memory) (dst src len : BitVec 32) : Except Trap Memory :=
  match m.span src 0 len.toNat with
  | .error t => .error t
  | .ok start =>
    match m.span dst 0 len.toNat with
    | .error t => .error t
    | .ok target => .ok (m.splice target (m.slice start len.toNat))

/-- Zero bytes are added up to a length. -/
def extendTo (m : Memory) (len : Nat) : Memory :=
  { m with bytes := m.bytes ++ zeros (len - m.byteLen) }

/-- Adds zero pages. The result is the old size, or -1 if the memory stays as it is; only a size
that may not be reached is refused, not for want of bytes. -/
def grow (m : Memory) (delta : BitVec 32) : Memory × Int × Event :=
  if delta.toInt < 0 ∨ pageLimit < delta.toNat then
    (m, -1, .memoryDeltaRejected delta.toInt)
  else
    let newPages := m.size + delta.toNat
    if m.maxPages < newPages ∨ pageLimit < newPages then
      (m, -1, .memoryGrowRejected m.size delta.toInt m.maxPages)
    else
      (m.extendTo (newPages * pageSize), m.size, .memoryGrown m.size newPages)

/-- Walks down from address `i`; the bytes from `i` to `stop` are not zero. -/
def nonzeroRunsBelow (b : ByteArray) : Nat → Nat → List (Nat × ByteArray) → List (Nat × ByteArray)
  | 0, stop, runs => if 0 < stop then (0, b.extract 0 stop) :: runs else runs
  | i + 1, stop, runs =>
    if (b[i]?).getD 0 = 0 then
      nonzeroRunsBelow b i i
        (if i + 1 < stop then (i + 1, b.extract (i + 1) stop) :: runs else runs)
    else
      nonzeroRunsBelow b i stop runs

/-- The longest runs of nonzero bytes, each with its first address. -/
def nonzeroRuns (m : Memory) : List (Nat × ByteArray) :=
  nonzeroRunsBelow m.bytes m.byteLen m.byteLen []

end Memory

end WasmHost
