import WasmHost.Proofs.Memory.Run

/-!
# WasmHost.Proofs.Memory.ByteOrder

Loads and stores over a library for the order of bytes. What they use of it are reads and writes of
words of two, four and eight bytes, and what is assumed of these is only which byte of a number
stands where. Single bytes need no library.

* `encode_unique`, `decode_unique`: a number has one list of bytes, and a list of bytes one number.
* `loadBy_eq`, `storeBy_eq`: over any such library, loads and stores are the ones of this memory.
* `isLittleEndian_self`: the bytes and numbers that these are defined with are such a library.
-/

namespace WasmHost

namespace LittleEndian

theorem encode_unique {n : Nat} {b : List UInt8}
    (h : ∀ i < b.length, b[i]? = some (UInt8.ofNat (n / 256 ^ i))) : encode b.length n = b := by
  apply List.ext_getElem?
  intro i
  by_cases hi : i < b.length
  · rw [h i hi, getElem?_encode n hi]
  · rw [List.getElem?_eq_none (by rw [length_encode]; omega), List.getElem?_eq_none (by omega)]

theorem decode_unique {n : Nat} {b : List UInt8} (hlt : n < 256 ^ b.length)
    (h : ∀ i (hi : i < b.length), n / 256 ^ i % 256 = b[i].toNat) : decode b = n := by
  have hbytes : encode b.length n = b := by
    apply encode_unique
    intro i hi
    have hbyte : UInt8.ofNat (n / 256 ^ i) = b[i] := by
      apply UInt8.toNat_inj.mp
      rw [← h i hi]
      exact UInt8.toNat_ofNat'
    rw [List.getElem?_eq_getElem hi, hbyte]
  calc decode b = decode (encode b.length n) := by rw [hbytes]
    _ = n % 256 ^ b.length := decode_encode _ _
    _ = n := Nat.mod_eq_of_lt hlt

theorem byte_of_decode (b : List UInt8) {i : Nat} (hi : i < b.length) :
    decode b / 256 ^ i % 256 = b[i].toNat := by
  have hbyte := getElem?_encode (decode b) hi
  rw [encode_decode, List.getElem?_eq_getElem hi] at hbyte
  rw [Option.some.inj hbyte]
  exact UInt8.toNat_ofNat'.symm

end LittleEndian

/-- Reads a number from bytes, and writes the lowest bytes of one, as many as are asked for. -/
structure ByteOrder where
  read : List UInt8 → Nat
  write : Nat → Nat → List UInt8

namespace ByteOrder

/-- How many bytes the words have that are read and written. -/
def widths : List Nat := [2, 4, 8]

/-- The least significant byte comes first. -/
structure IsLittleEndian (c : ByteOrder) : Prop where
  read_lt : ∀ b, b.length ∈ widths → c.read b < 256 ^ b.length
  byte_read : ∀ b, b.length ∈ widths → ∀ i (hi : i < b.length),
    c.read b / 256 ^ i % 256 = b[i].toNat
  length_write : ∀ k ∈ widths, ∀ n, (c.write k n).length = k
  byte_write : ∀ k ∈ widths, ∀ n, ∀ i < k, (c.write k n)[i]? = some (UInt8.ofNat (n / 256 ^ i))

/-- A single byte is its own number. -/
def number (c : ByteOrder) : List UInt8 → Nat
  | [x] => x.toNat
  | b => c.read b

def bytes (c : ByteOrder) (k n : Nat) : List UInt8 :=
  if k = 1 then [UInt8.ofNat n] else c.write k n

theorem isLittleEndian_self : IsLittleEndian ⟨LittleEndian.decode, LittleEndian.encode⟩ where
  read_lt b _ := LittleEndian.decode_lt b
  byte_read b _ _ hi := LittleEndian.byte_of_decode b hi
  length_write k _ n := LittleEndian.length_encode k n
  byte_write _ _ n _ hi := LittleEndian.getElem?_encode n hi

section

variable {c : ByteOrder} (hc : c.IsLittleEndian)
include hc

theorem number_eq {b : List UInt8} (h : b.length = 1 ∨ b.length ∈ widths) :
    c.number b = LittleEndian.decode b := by
  rcases h with hone | hword
  · obtain ⟨x, rfl⟩ := List.length_eq_one_iff.mp hone
    simp [number, LittleEndian.decode]
  · have hnumber : c.number b = c.read b := by
      rcases b with _ | ⟨x, _ | ⟨y, r⟩⟩
      · rfl
      · exact absurd hword (by decide : 1 ∉ widths)
      · rfl
    rw [hnumber, LittleEndian.decode_unique (hc.read_lt b hword) (hc.byte_read b hword)]

theorem bytes_eq {k : Nat} (h : k = 1 ∨ k ∈ widths) (n : Nat) :
    c.bytes k n = LittleEndian.encode k n := by
  rcases h with rfl | hword
  · rfl
  · have hone : k ≠ 1 := by
      rintro rfl
      exact absurd hword (by decide)
    have hlength := hc.length_write k hword n
    have hwrite := LittleEndian.encode_unique (n := n) (b := c.write k n) (by
      rw [hlength]
      exact hc.byte_write k hword n)
    rw [bytes, if_neg hone, ← hwrite, hlength]

end

end ByteOrder

theorem LoadKind.bytesRead_mem (k : LoadKind) :
    k.bytesRead = 1 ∨ k.bytesRead ∈ ByteOrder.widths := by
  cases k with
  | full t => cases t <;> decide
  | load8 t s => exact .inl rfl
  | load16 t s => exact .inr (by decide : 2 ∈ ByteOrder.widths)
  | load32 s => exact .inr (by decide : 4 ∈ ByteOrder.widths)

theorem StoreKind.bytesWritten_mem (k : StoreKind) :
    k.bytesWritten = 1 ∨ k.bytesWritten ∈ ByteOrder.widths := by
  cases k with
  | full t => cases t <;> decide
  | store8 t => exact .inl rfl
  | store16 t => exact .inr (by decide : 2 ∈ ByteOrder.widths)
  | store32 => exact .inr (by decide : 4 ∈ ByteOrder.widths)

namespace Memory

def loadBy (c : ByteOrder) (m : Memory) (k : LoadKind) (position offset : BitVec 32) :
    Except Trap Value :=
  match m.read position offset k.bytesRead with
  | .ok b => .ok (k.value (c.number b.data.toList))
  | .error t => .error t

def storeBy (c : ByteOrder) (m : Memory) (k : StoreKind) (position offset : BitVec 32)
    (v : Value) : Except Trap Memory :=
  m.write position offset ⟨(c.bytes k.bytesWritten v.bits).toArray⟩

theorem size_of_read {m : Memory} {position offset : BitVec 32} {width : Nat} {b : ByteArray}
    (h : m.read position offset width = .ok b) : b.size = width := by
  unfold read at h
  split at h
  · rename_i start hspan
    obtain ⟨rfl, hle⟩ := bounds_of_span hspan
    rw [← Except.ok.inj h, size_slice hle]
  · cases h

variable {c : ByteOrder} (hc : c.IsLittleEndian) (m : Memory) (position offset : BitVec 32)
include hc

theorem loadBy_eq (k : LoadKind) : m.loadBy c k position offset = m.load k position offset := by
  unfold loadBy load
  rw [k.width_eq_bytesRead]
  cases hread : m.read position offset k.bytesRead with
  | error t => rfl
  | ok b =>
    have hlength : b.data.toList.length = k.bytesRead := size_of_read hread
    have hkind := k.bytesRead_mem
    rw [← hlength] at hkind
    simp only [ByteOrder.number_eq hc hkind]

theorem storeBy_eq (k : StoreKind) (v : Value) :
    m.storeBy c k position offset v = m.store k position offset v := by
  rw [storeBy, store, ByteOrder.bytes_eq hc k.bytesWritten_mem, k.width_eq_bytesWritten]

end Memory
end WasmHost
