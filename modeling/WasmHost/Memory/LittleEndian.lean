import WasmHost.ValType

/-!
# WasmHost.Memory.LittleEndian

Natural numbers as bytes, least significant first. These stand for the reads and writes of words of
16, 32 and 64 bits that a host takes from the byteorder library; what is documented of such a
library leaves no other numbers and no other bytes.
-/

namespace WasmHost
namespace LittleEndian

/-- The lowest `k` bytes of `n`. -/
def encode : Nat → Nat → List UInt8
  | 0, _ => []
  | k + 1, n => UInt8.ofNat n :: encode k (n / 256)

def decode : List UInt8 → Nat
  | [] => 0
  | b :: r => b.toNat + 256 * decode r

theorem length_encode (k n : Nat) : (encode k n).length = k := by
  induction k generalizing n with
  | zero => rfl
  | succ k ih => simp [encode, ih]

theorem getElem?_encode {k i : Nat} (n : Nat) (h : i < k) :
    (encode k n)[i]? = some (UInt8.ofNat (n / 256 ^ i)) := by
  induction k generalizing n i with
  | zero => omega
  | succ k ih =>
    cases i with
    | zero => simp [encode]
    | succ i =>
      have hpow : n / 256 / 256 ^ i = n / 256 ^ (i + 1) := by
        rw [Nat.div_div_eq_div_mul, Nat.pow_succ, Nat.mul_comm]
      rw [encode, List.getElem?_cons_succ, ih (n / 256) (by omega), hpow]

/-- Reading back what was written gives the number modulo the range of its bytes. -/
theorem decode_encode (k n : Nat) : decode (encode k n) = n % 256 ^ k := by
  induction k generalizing n with
  | zero => simp [encode, decode, Nat.mod_one]
  | succ k ih =>
    have hpow : 256 ^ (k + 1) = 256 * 256 ^ k := by rw [Nat.pow_succ, Nat.mul_comm]
    rw [hpow, Nat.mod_mul]
    simp [encode, decode, ih]

theorem decode_lt (b : List UInt8) : decode b < 256 ^ b.length := by
  induction b with
  | nil => simp [decode]
  | cons x r ih =>
    have hx : x.toNat < 256 := x.toNat_lt
    have hpow : 256 ^ (r.length + 1) = 256 * 256 ^ r.length := by rw [Nat.pow_succ, Nat.mul_comm]
    simp only [decode, List.length_cons, hpow]
    omega

/-- Writing back what was read gives the same bytes. -/
theorem encode_decode (b : List UInt8) : encode b.length (decode b) = b := by
  induction b with
  | nil => rfl
  | cons x r ih =>
    have hx : x.toNat < 256 := x.toNat_lt
    have hdiv : (x.toNat + 256 * decode r) / 256 = decode r := by omega
    have hlow : UInt8.ofNat (x.toNat + 256 * decode r) = x := by
      apply UInt8.toNat_inj.mp
      simp
    simp only [List.length_cons, encode, decode, hdiv, hlow, ih]

/-- Only the bits that fit into the bytes count. -/
theorem encode_mod (k n : Nat) : encode k (n % 256 ^ k) = encode k n := by
  have h := encode_decode (encode k n)
  rwa [length_encode, decode_encode] at h

end LittleEndian
end WasmHost
