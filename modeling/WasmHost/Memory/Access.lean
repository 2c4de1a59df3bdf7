import WasmHost.Memory.Basic
import WasmHost.Memory.LittleEndian

/-!
# WasmHost.Memory.Access

Typed loads and stores. Numbers lie in memory with the least significant byte first; floats keep
every bit on the way in and out. `loadFrom` and `storeTo` are the forms without an offset.
-/

namespace WasmHost

/-- What a load reads: a whole value, or fewer bytes that are extended to an integer. -/
inductive LoadKind where
  | full (t : ValType)
  | load8 (t : IntType) (s : Signedness)
  | load16 (t : IntType) (s : Signedness)
  | load32 (s : Signedness)
  deriving DecidableEq

/-- What a store writes: a whole value, or the low bytes of an integer. -/
inductive StoreKind where
  | full (t : ValType)
  | store8 (t : IntType)
  | store16 (t : IntType)
  | store32
  deriving DecidableEq

namespace ValType

def byteWidth : ValType → Nat
  | .i32 => 4
  | .i64 => 8
  | .f32 => 4
  | .f64 => 8

end ValType

namespace Value

/-- The bits of a value as a natural number. -/
def bits : Value → Nat
  | .i32 x => x.toNat
  | .i64 x => x.toNat
  | .f32 x => x.toBits.toNat
  | .f64 x => x.toBits.toNat

/-- The value of a type with the lowest bits of a number. -/
def ofBits (t : ValType) (n : Nat) : Value :=
  match t with
  | .i32 => .i32 (BitVec.ofNat 32 n)
  | .i64 => .i64 (BitVec.ofNat 64 n)
  | .f32 => .f32 (Binary.ofBits (BitVec.ofNat 32 n))
  | .f64 => .f64 (Binary.ofBits (BitVec.ofNat 64 n))

theorem ofBits_bits (v : Value) : ofBits v.typ v.bits = v := by
  cases v with
  | i32 x => simp [ofBits, bits, typ]
  | i64 x => simp [ofBits, bits, typ]
  | f32 x =>
    have h : BitVec.ofNat 32 x.toBits.toNat = x.toBits :=
      BitVec.eq_of_toNat_eq (Nat.mod_eq_of_lt x.toBits.isLt)
    simp only [ofBits, bits, typ]
    rw [h, Binary.ofBits_toBits]
  | f64 x =>
    have h : BitVec.ofNat 64 x.toBits.toNat = x.toBits :=
      BitVec.eq_of_toNat_eq (Nat.mod_eq_of_lt x.toBits.isLt)
    simp only [ofBits, bits, typ]
    rw [h, Binary.ofBits_toBits]

end Value

namespace Signedness

/-- The low `k` bits of a number as a word of `w` bits, with the sign or with zeros in front. -/
def extend (s : Signedness) (k w n : Nat) : BitVec w :=
  match s with
  | .signed => (BitVec.ofNat k n).signExtend w
  | .unsigned => (BitVec.ofNat k n).setWidth w

end Signedness

namespace LoadKind

def all : List LoadKind :=
  ValType.all.map .full
    ++ IntType.all.flatMap (fun t => Signedness.all.flatMap (fun s => [.load8 t s, .load16 t s]))
    ++ Signedness.all.map .load32

def name : LoadKind → String
  | .full t => t.name ++ "_load"
  | .load8 t s => t.name ++ "_load8_" ++ s.letter
  | .load16 t s => t.name ++ "_load16_" ++ s.letter
  | .load32 s => "i64_load32_" ++ s.letter

def ofName? (s : String) : Option LoadKind := all.find? (fun k => k.name == s)

def width : LoadKind → Nat
  | .full t => t.byteWidth
  | .load8 .. => 1
  | .load16 .. => 2
  | .load32 _ => 4

/-- The value read from bytes that hold a number. -/
def value (k : LoadKind) (n : Nat) : Value :=
  match k with
  | .full t => .ofBits t n
  | .load8 t s => .ofInt t (s.extend 8 t.width n)
  | .load16 t s => .ofInt t (s.extend 16 t.width n)
  | .load32 s => .i64 (s.extend 32 64 n)

end LoadKind

namespace StoreKind

def all : List StoreKind :=
  ValType.all.map .full ++ IntType.all.flatMap (fun t => [.store8 t, .store16 t]) ++ [.store32]

def name : StoreKind → String
  | .full t => t.name ++ "_store"
  | .store8 t => t.name ++ "_store8"
  | .store16 t => t.name ++ "_store16"
  | .store32 => "i64_store32"

def ofName? (s : String) : Option StoreKind := all.find? (fun k => k.name == s)

def typ : StoreKind → ValType
  | .full t => t
  | .store8 t => t.toValType
  | .store16 t => t.toValType
  | .store32 => .i64

def width : StoreKind → Nat
  | .full t => t.byteWidth
  | .store8 _ => 1
  | .store16 _ => 2
  | .store32 => 4

end StoreKind

namespace Memory

def load (m : Memory) (k : LoadKind) (position offset : BitVec 32) : Except Trap Value :=
  match m.read position offset k.width with
  | .ok b => .ok (k.value (LittleEndian.decode b.data.toList))
  | .error t => .error t

/-- Writes the low bytes of the value's bits. -/
def store (m : Memory) (k : StoreKind) (position offset : BitVec 32) (v : Value) :
    Except Trap Memory :=
  m.write position offset ⟨(LittleEndian.encode k.width v.bits).toArray⟩

def loadFrom (m : Memory) (k : LoadKind) (position : BitVec 32) : Except Trap Value :=
  m.load k position 0

def storeTo (m : Memory) (k : StoreKind) (position : BitVec 32) (v : Value) : Except Trap Memory :=
  m.store k position 0 v

end Memory

end WasmHost
