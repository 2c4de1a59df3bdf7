import WasmHost.Proofs.Memory.Run
import WasmHost.Proofs.Text.Value

/-!
# WasmHost.Proofs.Memory.Codec

Stores and loads as encoding and decoding of numbers. A store of some width puts the low bytes of
the value's bits, least significant first, and a load of that width reads their number back,
whichever types the two are for. What a load makes of the number is told by integers: a narrow one
answers the word that stands, under its reading, for the integer of the bytes.

* `reads_value`: what a load makes of a number.
* `bits_value`: of that number nothing is lost, so it can be written back.
* `stored_splice`: the bytes that a store leaves.
* `codec_inverts_both_ways`: load after store, and store after load.
-/

namespace WasmHost

namespace Signedness

variable (s : Signedness) {k w : Nat} (h : k ≤ w) (n : Nat)
include h

/-- Extending a word keeps the integer that it stands for. -/
theorem read_extend : s.read (s.extend k w n) = s.read (BitVec.ofNat k n) := by
  cases s with
  | signed => exact BitVec.toInt_signExtend_of_le h
  | unsigned => exact congrArg Int.ofNat (BitVec.toNat_setWidth_of_le h)

theorem setWidth_extend : (s.extend k w n).setWidth k = BitVec.ofNat k n := by
  cases s with
  | signed =>
    apply BitVec.eq_of_getLsbD_eq
    intro i hi
    simp only [extend, BitVec.getLsbD_setWidth, BitVec.getLsbD_signExtend, hi, if_true,
      show i < w by omega, decide_true, Bool.true_and]
  | unsigned =>
    rw [extend, BitVec.setWidth_setWidth_of_le _ h, BitVec.setWidth_eq]

/-- Extending a word keeps its bits. -/
theorem toNat_extend_mod : (s.extend k w n).toNat % 2 ^ k = n % 2 ^ k := by
  have hlow := congrArg BitVec.toNat (s.setWidth_extend h n)
  rwa [BitVec.toNat_setWidth, BitVec.toNat_ofNat] at hlow

end Signedness

namespace Value

theorem bits_lt (v : Value) : v.bits < 2 ^ (8 * v.typ.byteWidth) := by
  cases v with
  | i32 x => exact x.isLt
  | i64 x => exact x.isLt
  | f32 x => exact x.toBits.isLt
  | f64 x => exact x.toBits.isLt

theorem typ_ofBits (t : ValType) (n : Nat) : (ofBits t n).typ = t := by cases t <;> rfl

theorem bits_ofBits (t : ValType) (n : Nat) :
    (ofBits t n).bits = n % 2 ^ (8 * t.byteWidth) := by
  cases t with
  | i32 => exact BitVec.toNat_ofNat ..
  | i64 => exact BitVec.toNat_ofNat ..
  | f32 => rw [ofBits, bits, Binary.toBits_ofBits, BitVec.toNat_ofNat]; rfl
  | f64 => rw [ofBits, bits, Binary.toBits_ofBits, BitVec.toNat_ofNat]; rfl

theorem bits_ofInt (t : IntType) (x : BitVec t.width) : (ofInt t x).bits = x.toNat := by
  cases t <;> rfl

/-- A word of `t` which stands for the same integer as the lowest `k` bits of a number do. -/
def Extends (t : IntType) (s : Signedness) (k n : Nat) (v : Value) : Prop :=
  ∃ x : BitVec t.width, v = .ofInt t x ∧ s.read x = s.read (BitVec.ofNat k n)

end Value

/-- What a load answers if its bytes hold a number: a full load those bits under its type, whatever
they mean there, and a narrow one the number extended. -/
def LoadKind.Reads (n : Nat) (v : Value) : LoadKind → Prop
  | .full t => v.typ = t ∧ v.bits = n
  | .load8 t s => v.Extends t s 8 n
  | .load16 t s => v.Extends t s 16 n
  | .load32 s => v.Extends .i64 s 32 n

namespace LoadKind

theorem reads_value (l : LoadKind) {n : Nat} (hn : n < 2 ^ (8 * l.width)) :
    l.Reads n (l.value n) := by
  cases l with
  | full t => exact ⟨Value.typ_ofBits t n, (Value.bits_ofBits t n).trans (Nat.mod_eq_of_lt hn)⟩
  | load8 t s => exact ⟨_, rfl, s.read_extend (by cases t <;> decide) n⟩
  | load16 t s => exact ⟨_, rfl, s.read_extend (by cases t <;> decide) n⟩
  | load32 s => exact ⟨_, rfl, s.read_extend (by decide) n⟩

/-- The bits in front are copies of the sign or zeros; those of the bytes are all there. -/
theorem bits_value (l : LoadKind) (n : Nat) :
    (l.value n).bits % 2 ^ (8 * l.width) = n % 2 ^ (8 * l.width) := by
  cases l with
  | full t => rw [value, Value.bits_ofBits, width, Nat.mod_mod]
  | load8 t s =>
    rw [value, Value.bits_ofInt]
    exact s.toNat_extend_mod (by cases t <;> decide) n
  | load16 t s =>
    rw [value, Value.bits_ofInt]
    exact s.toNat_extend_mod (by cases t <;> decide) n
  | load32 s => exact s.toNat_extend_mod (by decide) n

theorem width_le (l : LoadKind) : l.width ≤ 2 ^ 32 := by
  cases l with
  | full t => cases t <;> decide
  | load8 t s => exact (by decide : 1 ≤ 2 ^ 32)
  | load16 t s => exact (by decide : 2 ≤ 2 ^ 32)
  | load32 s => exact (by decide : 4 ≤ 2 ^ 32)

end LoadKind

theorem StoreKind.width_le (k : StoreKind) : k.width ≤ 2 ^ 32 := by
  cases k with
  | full t => cases t <;> decide
  | store8 t => exact (by decide : 1 ≤ 2 ^ 32)
  | store16 t => exact (by decide : 2 ≤ 2 ^ 32)
  | store32 => exact (by decide : 4 ≤ 2 ^ 32)

namespace Memory

/-- What a memory is after the `w` bytes of a number were put into it at `a`, and nothing else. -/
structure Stored (m : Memory) (a w n : Nat) (m' : Memory) : Prop where
  byteLen_eq : m'.byteLen = m.byteLen
  maxPages_eq : m'.maxPages = m.maxPages
  inside : ∀ i < w, (m'.byteAt (a + i)).toNat = n / 256 ^ i % 256
  outside : ∀ b, b < a ∨ a + w ≤ b → m'.byteAt b = m.byteAt b

theorem two_pow_bits (w : Nat) : 2 ^ (8 * w) = 256 ^ w := Nat.pow_mul 2 8 w

/-- The bytes that a store writes. -/
def encoded (k : StoreKind) (v : Value) : ByteArray :=
  ⟨(LittleEndian.encode k.width v.bits).toArray⟩

/-- The number that the bytes from an address on hold. -/
def numberAt (m : Memory) (a w : Nat) : Nat := LittleEndian.decode (m.slice a w).data.toList

theorem numberAt_lt {m : Memory} {a w : Nat} (h : a + w ≤ m.byteLen) :
    m.numberAt a w < 2 ^ (8 * w) := by
  have hlt := LittleEndian.decode_lt (m.slice a w).data.toList
  have hsize : (m.slice a w).data.toList.length = w := size_slice h
  rw [hsize] at hlt
  rwa [two_pow_bits]

theorem stored_splice {m : Memory} {a : Nat} {k : StoreKind} (v : Value)
    (h : a + k.width ≤ m.byteLen) :
    m.Stored a k.width (v.bits % 2 ^ (8 * k.width)) (m.splice a (encoded k v)) := by
  have hsize : (encoded k v).size = k.width := size_encoded k v
  rw [← hsize] at h
  refine ⟨byteLen_splice h, maxPages_splice m a _, ?_, ?_⟩
  · intro i hi
    have hbyte := LittleEndian.getElem?_encode (v.bits % 256 ^ k.width) hi
    rw [LittleEndian.encode_mod] at hbyte
    have hin : i < (encoded k v).size := by omega
    have hget : (encoded k v)[i] = UInt8.ofNat (v.bits % 256 ^ k.width / 256 ^ i) := by
      rw [ByteArray.getElem_eq_getElem_data]
      simpa [encoded] using (List.getElem?_eq_some_iff.mp hbyte).2
    rw [byteAt_splice_inside h hin, hget, two_pow_bits]
    exact UInt8.toNat_ofNat'
  · intro b hb
    refine byteAt_splice_outside h ?_
    omega

section

variable {m : Memory} {p o : BitVec 32} (haddress : p.toNat + o.toNat ≤ 2 ^ 32 - 1)
include haddress

theorem load_eq {l : LoadKind} (h : p.toNat + o.toNat + l.width ≤ m.byteLen) :
    m.load l p o = .ok (l.value (m.numberAt (p.toNat + o.toNat) l.width)) := by
  simp only [load, read, span_eq_ok haddress l.width_le h, numberAt]

theorem store_eq {k : StoreKind} (v : Value) (h : p.toNat + o.toNat + k.width ≤ m.byteLen) :
    m.store k p o v = .ok (m.splice (p.toNat + o.toNat) (encoded k v)) := by
  simp only [store, write, size_encoded, span_eq_ok haddress k.width_le h, encoded]

end

theorem numberAt_splice {m : Memory} {a : Nat} {k : StoreKind} (v : Value)
    (h : a + k.width ≤ m.byteLen) :
    (m.splice a (encoded k v)).numberAt a k.width = v.bits % 2 ^ (8 * k.width) := by
  have hsize : (encoded k v).size = k.width := size_encoded k v
  have hslice : (m.splice a (encoded k v)).slice a (encoded k v).size = encoded k v :=
    slice_splice (by omega)
  rw [hsize] at hslice
  rw [numberAt, hslice, two_pow_bits]
  exact LittleEndian.decode_encode k.width v.bits

/-- The bytes written for what was read are those that were read. -/
theorem encoded_value {m : Memory} {a : Nat} {k : StoreKind} {l : LoadKind}
    (hwidth : l.width = k.width) (h : a + k.width ≤ m.byteLen) :
    encoded k (l.value (m.numberAt a k.width)) = m.slice a k.width := by
  have hlength : (m.slice a k.width).data.toList.length = k.width := size_slice h
  have hbits : (l.value (m.numberAt a k.width)).bits % 256 ^ k.width = m.numberAt a k.width := by
    rw [← two_pow_bits, ← hwidth, l.bits_value, hwidth, Nat.mod_eq_of_lt (numberAt_lt h)]
  have hbytes := LittleEndian.encode_decode (m.slice a k.width).data.toList
  rw [hlength] at hbytes
  rw [encoded, ← LittleEndian.encode_mod, hbits, numberAt, hbytes]

/-- In any memory, at any address where the bytes of a store are in the memory. The store puts the
low bytes of the value's bits, least significant first, and nothing else. A load of as many bytes at
the same address, however that is split, answers the number of these bits as its kind says; where
all bits of a value were stored and all of a type are loaded, they are the same bits, and under the
same type the same value. And whatever a load of as many bytes answers can be stored at its address
without a change to the memory. -/
theorem codec_inverts_both_ways {m : Memory} {p o : BitVec 32} {k : StoreKind}
    (haddress : p.toNat + o.toNat ≤ 2 ^ 32 - 1)
    (hfits : p.toNat + o.toNat + k.bytesWritten ≤ m.byteLen) :
    (∀ v, ∃ m', m.store k p o v = .ok m' ∧
      m.Stored (p.toNat + o.toNat) k.bytesWritten (v.bits % 2 ^ (8 * k.bytesWritten)) m' ∧
      ∀ (l : LoadKind) (p' o' : BitVec 32), l.bytesRead = k.bytesWritten →
        p'.toNat + o'.toNat = p.toNat + o.toNat →
        ∃ r, m'.load l p' o' = .ok r ∧ l.Reads (v.bits % 2 ^ (8 * k.bytesWritten)) r ∧
          ∀ t, k = .full v.typ → l = .full t → r.bits = v.bits ∧ (t = v.typ → r = v)) ∧
    (∀ (l : LoadKind) (p' o' : BitVec 32), l.bytesRead = k.bytesWritten →
      p'.toNat + o'.toNat = p.toNat + o.toNat →
      ∃ r, m.load l p' o' = .ok r ∧ m.store k p o r = .ok m) := by
  rw [← k.width_eq_bytesWritten] at hfits ⊢
  constructor
  · intro v
    have hstored := stored_splice v hfits
    refine ⟨_, store_eq haddress v hfits, hstored, ?_⟩
    intro l p' o' hwidth hsame
    rw [← l.width_eq_bytesRead] at hwidth
    have hin : p'.toNat + o'.toNat + l.width ≤
        (m.splice (p.toNat + o.toNat) (encoded k v)).byteLen := by
      rw [hstored.byteLen_eq, hsame, hwidth]
      exact hfits
    refine ⟨_, load_eq (by omega) hin, ?_⟩
    rw [hsame, hwidth, numberAt_splice v hfits]
    have hreads : l.Reads (v.bits % 2 ^ (8 * k.width)) (l.value (v.bits % 2 ^ (8 * k.width))) :=
      l.reads_value (by rw [hwidth]; exact Nat.mod_lt _ (Nat.two_pow_pos _))
    refine ⟨hreads, ?_⟩
    rintro t rfl rfl
    obtain ⟨htyp, hbits⟩ := hreads
    rw [StoreKind.width, Nat.mod_eq_of_lt v.bits_lt] at hbits htyp ⊢
    exact ⟨hbits, fun ht => Value.eq_iff_typ_and_bits.mpr ⟨htyp.trans ht, hbits⟩⟩
  · intro l p' o' hwidth hsame
    rw [← l.width_eq_bytesRead] at hwidth
    refine ⟨_, load_eq (by omega) (by rw [hsame, hwidth]; exact hfits), ?_⟩
    rw [store_eq haddress _ hfits, hsame, hwidth, encoded_value hwidth hfits, splice_slice hfits]

/-- The low half of a word of 32 bits, stored at the end of a page under one split of its address
and loaded as a word of 64 bits under another: the sign of the half is extended. Back in place it
changes nothing. -/
theorem codec_of_half :
    65000 + 534 ≤ 2 ^ 32 - 1 ∧ 65000 + 534 + 2 ≤ (zeroed 1 1).byteLen ∧
      (∃ m', (zeroed 1 1).store (.store16 .i32) 65000 534 (.i32 0xABCD8001) = .ok m' ∧
        ∃ x : BitVec 64, m'.load (.load16 .i64 .signed) 65534 0 = .ok (.i64 x) ∧
          x.toInt = -32767) ∧
      ∃ r, (zeroed 1 1).load (.load16 .i64 .signed) 65534 0 = .ok r ∧
        (zeroed 1 1).store (.store16 .i32) 65000 534 r = .ok (zeroed 1 1) := by
  have hfits : 65000 + 534 + 2 ≤ (zeroed 1 1).byteLen := by
    rw [byteLen_zeroed]
    decide
  obtain ⟨hstore, hload⟩ := codec_inverts_both_ways (m := zeroed 1 1) (p := 65000) (o := 534)
    (k := .store16 .i32) (by decide) hfits
  refine ⟨by decide, hfits, ?_, hload (.load16 .i64 .signed) 65534 0 rfl rfl⟩
  obtain ⟨m', hm', _, hloads⟩ := hstore (.i32 0xABCD8001)
  obtain ⟨r, hr, ⟨x, rfl, hx⟩, _⟩ := hloads (.load16 .i64 .signed) 65534 0 rfl rfl
  exact ⟨m', hm', x, hr, hx.trans (by decide)⟩

end Memory
end WasmHost
