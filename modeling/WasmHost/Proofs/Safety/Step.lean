import WasmHost.Word
import WasmHost.Memory.LittleEndian

/-!
# WasmHost.Proofs.Safety.Step

The steps of the host that are not defined on all their arguments. Where a sum or a product has too
many bits, a difference is negative, a divisor is zero or a range does not lie in a buffer, the host
stops in the middle of an operation. Here that is `none`; it is not a trap, which is an answer.

Beside each step is the lemma that says where it is defined. `cast` is defined on all numbers, but
cuts off what has too many bits.
-/

namespace WasmHost
namespace Host

/-- A sum of words of `w` bits. -/
def add (w a b : Nat) : Option Nat := Word.checkedAdd w a b

def sub (a b : Nat) : Option Nat := if b ≤ a then some (a - b) else none

def mul (w a b : Nat) : Option Nat := if a * b < 2 ^ w then some (a * b) else none

/-- A signed quotient, cut toward zero. -/
def div {w : Nat} (a b : BitVec w) : Option (BitVec w) :=
  let quotient := a.toInt.tdiv b.toInt
  if b ≠ 0#w ∧ -2 ^ (w - 1) ≤ quotient ∧ quotient < 2 ^ (w - 1) then
    some (BitVec.ofInt w quotient)
  else
    none

/-- A signed remainder. The quotient need not be a word. -/
def rem {w : Nat} (a b : BitVec w) : Option (BitVec w) :=
  if b ≠ 0#w then some (BitVec.ofInt w (a.toInt.tmod b.toInt)) else none

/-- The low `w` bits of a number. -/
def cast (w n : Nat) : Nat := n % 2 ^ w

/-- The low `w` bits of a number, read signed. -/
def signedCast (w n : Nat) : Int := (BitVec.ofNat w n).toInt

/-- The bytes from `start` to `stop`. -/
def slice (b : ByteArray) (start stop : Nat) : Option ByteArray :=
  if start ≤ stop ∧ stop ≤ b.size then some (b.extract start stop) else none

/-- The number that lies in a slice of `width` bytes. -/
def decode (width : Nat) (b : ByteArray) : Option Nat :=
  if b.size = width then some (LittleEndian.decode b.data.toList) else none

/-- Other bytes for those from `start` to `stop`, as many. -/
def overwrite (b : ByteArray) (start stop : Nat) (source : ByteArray) : Option ByteArray :=
  if start ≤ stop ∧ stop ≤ b.size ∧ source.size = stop - start then
    some (source.copySlice 0 b start source.size)
  else
    none

/-- The bytes from `start` to `stop` once more at `target`. -/
def copyWithin (b : ByteArray) (start stop target : Nat) : Option ByteArray :=
  if start ≤ stop ∧ stop ≤ b.size ∧ target ≤ b.size - (stop - start) then
    some ((b.extract start stop).copySlice 0 b target (stop - start))
  else
    none

/-! ## Where the steps are defined -/

section

variable {w a b n : Nat}

theorem add_of_lt (h : a + b < 2 ^ w) : add w a b = some (a + b) :=
  Word.checkedAdd_eq_some_iff.mpr ⟨rfl, h⟩

theorem sub_of_le (h : b ≤ a) : sub a b = some (a - b) := if_pos h

theorem mul_of_lt (h : a * b < 2 ^ w) : mul w a b = some (a * b) := if_pos h

theorem cast_of_lt (h : n < 2 ^ w) : cast w n = n := Nat.mod_eq_of_lt h

theorem signedCast_of_lt (h : 2 * n < 2 ^ w) : signedCast w n = n := by
  have hword : (BitVec.ofNat w n).toNat = n := by
    rw [BitVec.toNat_ofNat]
    exact Nat.mod_eq_of_lt (by omega)
  rw [signedCast, BitVec.toInt_eq_toNat_of_lt (by rw [hword]; exact h), hword]

end

section

variable {w : Nat} {a b : BitVec w}

/-- Only the least word by minus one has a quotient that is no word. -/
theorem div_of_ne (hzero : b ≠ 0#w) (hfits : ¬ (a = BitVec.intMin w ∧ b = -1#w)) :
    div a b = some (a.sdiv b) := by
  have hquotient : (a.sdiv b).toInt = a.toInt.tdiv b.toInt :=
    BitVec.toInt_sdiv_of_ne_or_ne a b (by
      by_cases ha : a = BitVec.intMin w
      · exact .inr fun hb => hfits ⟨ha, hb⟩
      · exact .inl ha)
  simp only [div, ← hquotient, BitVec.ofInt_toInt]
  exact if_pos ⟨hzero, BitVec.le_toInt _, BitVec.toInt_lt⟩

theorem rem_of_ne (hzero : b ≠ 0#w) : rem a b = some (a.srem b) := by
  rw [rem, if_pos hzero, ← BitVec.toInt_srem, BitVec.ofInt_toInt]

end

section

variable {b source : ByteArray} {start stop target : Nat}

theorem slice_of_le (hstart : start ≤ stop) (hstop : stop ≤ b.size) :
    slice b start stop = some (b.extract start stop) := if_pos ⟨hstart, hstop⟩

theorem decode_of_size {width : Nat} (h : b.size = width) :
    decode width b = some (LittleEndian.decode b.data.toList) := if_pos h

theorem overwrite_of_size (hstop : start + source.size ≤ b.size) :
    overwrite b start (start + source.size) source =
      some (source.copySlice 0 b start source.size) :=
  if_pos ⟨Nat.le_add_right _ _, hstop, (Nat.add_sub_cancel_left _ _).symm⟩

theorem copyWithin_of_le {count : Nat} (hsource : start + count ≤ b.size)
    (htarget : target + count ≤ b.size) :
    copyWithin b start (start + count) target =
      some ((b.extract start (start + count)).copySlice 0 b target count) := by
  unfold copyWithin
  rw [Nat.add_sub_cancel_left]
  exact if_pos ⟨Nat.le_add_right _ _, hsource, Nat.le_sub_of_add_le htarget⟩

end

end Host
end WasmHost
