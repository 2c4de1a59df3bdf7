import WasmHost.Memory.Access

/-!
# WasmHost.Memory.Op

Operations on one memory as data, so that whole runs of them can be spoken about. A load or store
without an offset is the one with the offset zero.
-/

namespace WasmHost
namespace Memory

inductive Op where
  | load (k : LoadKind) (position offset : BitVec 32)
  | store (k : StoreKind) (position offset : BitVec 32) (v : Value)
  | read (position : BitVec 32) (len : Nat)
  | write (position : BitVec 32) (b : ByteArray)
  | put (position : BitVec 32) (b : ByteArray)
  | fill (dst : BitVec 32) (value : UInt8) (len : BitVec 32)
  | copy (dst src len : BitVec 32)
  | grow (delta : BitVec 32)

def Op.loadFrom (k : LoadKind) (position : BitVec 32) : Op := .load k position 0

def Op.storeTo (k : StoreKind) (position : BitVec 32) (v : Value) : Op := .store k position 0 v

inductive Answer where
  | done
  | value (v : Value)
  | bytes (b : ByteArray)
  | grown (result : Int)

/-- A write that traps leaves the memory as it was. -/
def written (m : Memory) : Except Trap Memory → Outcome Memory Trap Answer
  | .ok m' => ⟨m', .ok .done, []⟩
  | .error t => ⟨m, .error t, []⟩

def perform (m : Memory) : Op → Outcome Memory Trap Answer
  | .load k position offset => ⟨m, (m.load k position offset).map .value, []⟩
  | .store k position offset v => m.written (m.store k position offset v)
  | .read position len => ⟨m, (m.read position 0 len).map .bytes, []⟩
  | .write position b => m.written (m.write position 0 b)
  | .put position b => m.written (m.put position b)
  | .fill dst value len => m.written (m.fill dst value len)
  | .copy dst src len => m.written (m.copy dst src len)
  | .grow delta =>
    let (m', result, event) := m.grow delta
    ⟨m', .ok (.grown result), [event]⟩

theorem perform_loadFrom (m : Memory) (k : LoadKind) (position : BitVec 32) :
    m.perform (.loadFrom k position) = ⟨m, (m.loadFrom k position).map .value, []⟩ := rfl

theorem perform_storeTo (m : Memory) (k : StoreKind) (position : BitVec 32) (v : Value) :
    m.perform (.storeTo k position v) = m.written (m.storeTo k position v) := rfl

/-- The memory after a run of operations, failed ones among them. -/
def run (m : Memory) (ops : List Op) : Memory := ops.foldl (fun m op => (m.perform op).state) m

end Memory
end WasmHost
