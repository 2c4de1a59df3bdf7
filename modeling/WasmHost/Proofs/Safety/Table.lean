import WasmHost.Proofs.Table.Contents
import WasmHost.Proofs.Safety.Step

/-!
# WasmHost.Proofs.Safety.Table

The operations on a table, taken one step of the host after the other. On every table that can come
about none of these steps stops, and the answer is that of the operation.

* `strictInit_eq`: a segment, in bounds or not.
* `strictGrow_eq`: growth, whose sum of sizes may have too many bits.
* `strictPerform_eq`, `strictRun_eq`: every operation, and a run of them.
-/

namespace WasmHost
namespace Table

/-- A segment is a slice of the host, and no slice has `2 ^ 63` bytes. -/
def Op.Fits : Op → Prop
  | .init _ es => es.length < 2 ^ 63
  | .get _ | .set .. | .clear _ | .grow .. | .callee .. => True

/-! ## The steps -/

/-- The size as a word of 32 bits. -/
def strictSize (t : Table) : Nat := Host.cast 32 t.slots.size

/-- The index reported is taken down by one, and then has to be a word. -/
def strictInit (t : Table) (offset : BitVec 32) (es : List Element) :
    Option (Except Trap Table) := do
  let start := offset.toNat
  let stop ← Host.add 64 start es.length
  if t.slots.size < stop then
    let last ← Host.sub stop 1
    let index := if last < 2 ^ 32 then last else 2 ^ 32 - 1
    return .error (.range (.tableIndex index t.strictSize))
  else if start ≤ stop ∧ stop ≤ t.slots.size then
    return .ok { t with slots := fillSlots t.slots start es }
  else
    none

/-- The sizes are added where their sum is a word, and only there. -/
def strictGrow (t : Table) (delta : BitVec 32) (slot : Option Element) : Table × Int × Event :=
  let oldSize := t.strictSize
  match Word.checkedAdd 32 oldSize delta.toNat with
  | some newSize =>
    if newSize ≤ t.limit then
      (t.extendTo newSize slot, Host.signedCast 32 oldSize, .tableGrown oldSize newSize)
    else
      (t, -1, .tableGrowRejected oldSize delta.toNat t.limit)
  | none => (t, -1, .tableGrowRejected oldSize delta.toNat t.limit)

/-- The slot at an index is looked up, and that there is none is an answer. So what is done to one
slot has no step that may stop. -/
def strictPerform (t : Table) : Op → Option (Outcome Table Trap Answer)
  | .init offset es => do return t.written (← t.strictInit offset es)
  | .grow delta slot =>
    let (t', result, event) := t.strictGrow delta slot
    some ⟨t', .ok (.grown result), [event]⟩
  | .get index => some (t.perform (.get index))
  | .set index e => some (t.perform (.set index e))
  | .clear index => some (t.perform (.clear index))
  | .callee signature index => some (t.perform (.callee signature index))

def strictRun (t : Table) : List Op → Option Table
  | [] => some t
  | op :: ops => do
    let o ← t.strictPerform op
    o.state.strictRun ops

/-! ## No step stops -/

section

variable {max : Nat} {t : Table}

theorem strictSize_eq (h : Sized max t) : t.strictSize = t.size :=
  Host.cast_of_lt (Nat.lt_trans h.size_lt (by decide))

/-- A segment that hangs over the end of the table ends behind index zero. -/
theorem strictInit_eq (h : Sized max t) (offset : BitVec 32) {es : List Element}
    (hes : es.length < 2 ^ 63) : t.strictInit offset es = some (t.init offset es) := by
  have hoffset := offset.isLt
  have hsum : offset.toNat + es.length < 2 ^ 64 := by omega
  simp only [strictInit, init, Host.add_of_lt hsum, strictSize_eq h, Option.bind_eq_bind,
    Option.bind_some]
  by_cases hover : t.size < offset.toNat + es.length
  · have hone : 1 ≤ offset.toNat + es.length := by omega
    have hindex : (if offset.toNat + es.length - 1 < 2 ^ 32 then
        offset.toNat + es.length - 1 else 2 ^ 32 - 1) =
        Nat.min (offset.toNat + es.length - 1) (2 ^ 32 - 1) := by
      unfold Nat.min
      split <;> omega
    rw [if_pos hover, Host.sub_of_le hone, Option.bind_some, hindex]
    exact if_pos hover
  · rw [if_neg hover]
    exact (if_neg hover).trans (if_pos ⟨Nat.le_add_right _ _, Nat.le_of_not_lt hover⟩)

theorem strictGrow_eq (h : Sized max t) (delta : BitVec 32) (slot : Option Element) :
    t.strictGrow delta slot = t.grow delta slot := by
  have hsize := h.size_lt
  have hanswer : Host.signedCast 32 t.size = (t.size : Int) :=
    Host.signedCast_of_lt (by omega)
  simp only [strictGrow, grow, strictSize_eq h, hanswer]
  cases Word.checkedAdd 32 t.size delta.toNat with
  | none => rfl
  | some newSize =>
    by_cases hle : newSize ≤ t.limit <;> simp [hle, Option.filter]

theorem strictPerform_eq (h : Sized max t) {op : Op} (hop : op.Fits) :
    t.strictPerform op = some (t.perform op) := by
  cases op with
  | get index => rfl
  | set index e => rfl
  | clear index => rfl
  | callee signature index => rfl
  | init offset es => rw [strictPerform, strictInit_eq h offset hop]; rfl
  | grow delta slot => rw [strictPerform, strictGrow_eq h]; rfl

theorem strictRun_eq (h : Sized max t) {ops : List Op} (hops : ∀ op ∈ ops, op.Fits) :
    t.strictRun ops = some (t.run ops) := by
  induction ops generalizing t with
  | nil => rfl
  | cons op ops ih =>
    have hstep : t.strictRun (op :: ops) =
        (t.strictPerform op).bind fun o => o.state.strictRun ops := rfl
    have hrest : ∀ op' ∈ ops, op'.Fits := fun op' hop' => hops op' (List.mem_cons_of_mem _ hop')
    rw [hstep, strictPerform_eq h (hops op List.mem_cons_self), Option.bind_some,
      ih (h.perform op) hrest]
    rfl

end

end Table
end WasmHost
