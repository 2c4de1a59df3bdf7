import WasmHost.Addr
import WasmHost.Outcome
import WasmHost.Word

/-!
# WasmHost.Table.Basic

Tables of function references. A slot is empty or holds a function together with the signature
that an indirect call has to name.

The slots asked for are always granted. A host that is refused them fails an allocation with invalid
limits, and answers a growth with -1 and an event of its own; neither can come about here.
-/

namespace WasmHost

structure Element where
  signature : SignatureId
  function : Addr .function
  deriving DecidableEq

structure Table where
  slots : Array (Option Element)
  maxLength : Nat

namespace Table

/-- Slots that no table grows beyond, whatever maximum it declares. -/
def sizeLimit : Nat := 10000000

def empty (length max : Nat) : Table := ⟨Array.replicate length none, max⟩

instance : Inhabited Table := ⟨empty 0 0⟩

/-- A table of empty slots, if the limits allow it. -/
def allocate (length max : Nat) : Except LinkError Table :=
  if max < length then
    .error (.invalidLimits (.tableInitial length max))
  else if sizeLimit < length then
    .error (.invalidLimits (.tableMaximum length sizeLimit))
  else
    .ok (empty length max)

def size (t : Table) : Nat := t.slots.size

/-- The size that growth may reach. -/
def limit (t : Table) : Nat := Nat.min t.maxLength sizeLimit

def get (t : Table) (index : BitVec 32) : Except Trap (Option Element) :=
  match t.slots[index.toNat]? with
  | some slot => .ok slot
  | none => .error (.range (.tableIndex index.toNat t.size))

/-- Puts an element into a slot, or empties it. -/
def set (t : Table) (index : BitVec 32) (slot : Option Element) : Except Trap Table :=
  if index.toNat < t.size then
    .ok { t with slots := t.slots.setIfInBounds index.toNat slot }
  else
    .error (.range (.tableIndex index.toNat t.size))

/-- Slots with a segment written over those from `start` on. -/
def fillSlots (slots : Array (Option Element)) (start : Nat) :
    List Element → Array (Option Element)
  | [] => slots
  | e :: r => fillSlots (slots.setIfInBounds start (some e)) (start + 1) r

/-- The whole range is checked before any slot is written. The index reported is the last one of
the segment, or the greatest word if that is beyond 32 bits. -/
def init (t : Table) (offset : BitVec 32) (elements : List Element) : Except Trap Table :=
  let stop := offset.toNat + elements.length
  if t.size < stop then
    .error (.range (.tableIndex (Nat.min (stop - 1) (2 ^ 32 - 1)) t.size))
  else
    .ok { t with slots := fillSlots t.slots offset.toNat elements }

/-- Slots that all hold `slot` are added up to a size. -/
def extendTo (t : Table) (size : Nat) (slot : Option Element) : Table :=
  { t with slots := t.slots ++ Array.replicate (size - t.size) slot }

/-- Adds slots that all hold `slot`. The result is the old size, or -1 if the table stays as it
is. A new size beyond 32 bits is refused like one beyond the limit. -/
def grow (t : Table) (delta : BitVec 32) (slot : Option Element) : Table × Int × Event :=
  match (Word.checkedAdd 32 t.size delta.toNat).filter (· ≤ t.limit) with
  | none => (t, -1, .tableGrowRejected t.size delta.toNat t.limit)
  | some newSize => (t.extendTo newSize slot, t.size, .tableGrown t.size newSize)

/-- The function that an indirect call reaches: the index must be in the table, the slot must not
be empty, and the signatures must be the same, in this order. -/
def callee (t : Table) (signature : SignatureId) (index : BitVec 32) :
    Except Trap (Addr .function) :=
  match t.slots[index.toNat]? with
  | none => .error (.callIndirect (.undefinedElement index.toNat t.size))
  | some none => .error (.callIndirect (.emptySlot index.toNat))
  | some (some e) =>
    if e.signature = signature then
      .ok e.function
    else
      .error (.callIndirect (.signatureMismatch signature e.signature))

/-- The slots that are not empty, each with its index. -/
def populated (t : Table) : List (Nat × Element) :=
  t.slots.toList.zipIdx.filterMap (fun (slot, i) => slot.map (fun e => (i, e)))

end Table

end WasmHost
