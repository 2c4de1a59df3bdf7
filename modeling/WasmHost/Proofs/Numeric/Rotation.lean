import WasmHost.Numeric.Eval

/-!
# WasmHost.Proofs.Numeric.Rotation

Rotations of a word. The places of the bits stand on a circle, and a rotation turns it by a number
of places, any integer. `Turned` says which bit comes to stand where; a word can be turned by a
number in one way only, turns add up, and whole turns do nothing. That is all there is to rotations,
as the width of a word divides the number of words and so what a count loses by wrapping is whole
turns.

* `Turned.unique`, `Turned.trans`, `Turned.congr`: what follows from the description alone.
* `turned_rotateLeft`, `turned_rotateRight`: the two rotations are such turns.
* `rotations_turn_by_counts`: the laws of both instructions in both widths.
-/

namespace WasmHost

theorem IntType.width_dvd (t : IntType) : t.width ∣ 2 ^ t.width := by cases t <;> decide

namespace Word

variable {w : Nat}

/-- The word `y` is `x` turned by `n` places upwards. Its bit `i` is bit `i - n` of `x`, counted
around the circle of the places. -/
def Turned (n : Int) (x y : BitVec w) : Prop :=
  ∀ i < w, y.getLsbD i = x.getLsbD (((i : Int) - n) % w).toNat

section

variable {x y z : BitVec w} {n k : Int}

/-! ## Turns -/

theorem Turned.unique (h : Turned n x y) (h' : Turned n x z) : y = z := by
  apply BitVec.eq_of_getLsbD_eq
  intro i hi
  rw [h i hi, h' i hi]

theorem turned_zero (x : BitVec w) : Turned 0 x x := by
  intro i hi
  rw [Int.sub_zero, Int.emod_eq_of_lt (by omega) (by omega), Int.toNat_natCast]

theorem Turned.congr (hnk : n % w = k % w) (h : Turned n x y) : Turned k x y := by
  intro i hi
  rw [h i hi, ← Int.sub_emod_emod, hnk, Int.sub_emod_emod]

theorem Turned.trans (h : Turned n x y) (h' : Turned k y z) : Turned (n + k) x z := by
  intro i hi
  have hnonneg : 0 ≤ ((i : Int) - k) % w := Int.emod_nonneg _ (by omega)
  have hlt : ((i : Int) - k) % w < w := Int.emod_lt_of_pos _ (by omega)
  rw [h' i hi, h _ (by omega), Int.toNat_of_nonneg hnonneg, Int.emod_sub_emod, Int.sub_sub,
    Int.add_comm k n]

/-! ## Rotations by a natural number -/

/-- The places below the count get the bits that went over the end. -/
theorem toNat_sub_emod {i r : Nat} (hi : i < w) (hr : r < w) :
    (((i : Int) - r) % w).toNat = if i < r then w - r + i else i - r := by
  split
  · have hturn : ((i : Int) - r) % w = ((i : Int) - r + w) % w := (Int.add_emod_right _ _).symm
    rw [hturn, Int.emod_eq_of_lt (by omega) (by omega)]
    omega
  · rw [Int.emod_eq_of_lt (by omega) (by omega)]
    omega

/-- Downwards, the places above what is left of a turn get the bits that went below zero. -/
theorem add_mod_eq {i r : Nat} (hi : i < w) (hr : r < w) :
    (i + r) % w = if i < w - r then r + i else i - (w - r) := by
  split
  · rw [Nat.mod_eq_of_lt (by omega), Nat.add_comm]
  · rw [Nat.mod_eq_sub_mod (by omega), Nat.mod_eq_of_lt (by omega)]
    omega

theorem turned_rotateLeft_nat (x : BitVec w) (n : Nat) : Turned n x (x.rotateLeft n) := by
  intro i hi
  have hr : n % w < w := Nat.mod_lt n (by omega)
  rw [BitVec.getLsbD_rotateLeft, ← Int.sub_emod_emod, ← Int.natCast_emod, toNat_sub_emod hi hr]
  by_cases hover : i < n % w
  · simp [hover]
  · simp [hover, hi]

theorem turned_rotateRight_nat (x : BitVec w) (n : Nat) : Turned (-n) x (x.rotateRight n) := by
  intro i hi
  have hr : n % w < w := Nat.mod_lt n (by omega)
  rw [BitVec.getLsbD_rotateRight, Int.sub_neg, ← Int.natCast_add, ← Int.natCast_emod,
    Int.toNat_natCast, ← Nat.add_mod_mod, add_mod_eq hi hr]
  by_cases hover : i < w - n % w
  · simp [hover]
  · simp [hover, hi]

/-! ## Rotations by a word -/

section

variable (hw : w ∣ 2 ^ w)
include hw

/-- What wrapping takes from a number is whole turns. -/
theorem bmod_emod (n : Int) : n.bmod (2 ^ w) % w = n % w := by
  have hdvd : (w : Int) ∣ ((2 ^ w : Nat) : Int) := Int.natCast_dvd_natCast.mpr hw
  rw [← Int.emod_emod_of_dvd _ hdvd, Int.bmod_emod, Int.emod_emod_of_dvd _ hdvd]

/-- A count means the same with a sign as without. -/
theorem toInt_emod (a : BitVec w) : a.toInt % w = a.toNat % w := by
  rw [BitVec.toInt_eq_toNat_bmod, bmod_emod hw]

theorem toInt_add_emod (a b : BitVec w) : (a + b).toInt % w = (a.toInt + b.toInt) % w := by
  rw [BitVec.toInt_add, bmod_emod hw]

theorem toInt_neg_emod (a : BitVec w) : (-a).toInt % w = -a.toInt % w := by
  rw [BitVec.toInt_neg, bmod_emod hw]

theorem turned_rotateLeft (x a : BitVec w) : Turned a.toInt x (rotateLeft x a) :=
  (turned_rotateLeft_nat x a.toNat).congr (toInt_emod hw a).symm

theorem turned_rotateRight (x a : BitVec w) : Turned (-a.toInt) x (rotateRight x a) := by
  refine (turned_rotateRight_nat x a.toNat).congr ?_
  rw [← Int.zero_sub, ← Int.sub_emod_emod, ← toInt_emod hw, Int.sub_emod_emod, Int.zero_sub]

/-! ## The laws -/

variable (x a b : BitVec w)

theorem rotateRight_rotateLeft : rotateRight (rotateLeft x a) a = x := by
  have hturned := (turned_rotateLeft hw x a).trans (turned_rotateRight hw _ a)
  rw [Int.add_right_neg] at hturned
  exact hturned.unique (turned_zero x)

theorem rotateLeft_rotateRight : rotateLeft (rotateRight x a) a = x := by
  have hturned := (turned_rotateRight hw x a).trans (turned_rotateLeft hw _ a)
  rw [Int.add_left_neg] at hturned
  exact hturned.unique (turned_zero x)

theorem rotateLeft_rotateLeft : rotateLeft (rotateLeft x a) b = rotateLeft x (a + b) := by
  have hturned := (turned_rotateLeft hw x a).trans (turned_rotateLeft hw _ b)
  exact (hturned.congr (toInt_add_emod hw a b).symm).unique (turned_rotateLeft hw x (a + b))

theorem rotateRight_eq_rotateLeft_neg : rotateRight x a = rotateLeft x (-a) :=
  ((turned_rotateRight hw x a).congr (toInt_neg_emod hw a).symm).unique
    (turned_rotateLeft hw x (-a))

variable {a b} in
/-- Only what a count leaves of whole turns matters. -/
theorem rotations_congr (h : a.toInt % w = b.toInt % w) :
    rotateLeft x a = rotateLeft x b ∧ rotateRight x a = rotateRight x b := by
  have hneg : -a.toInt % w = -b.toInt % w := by
    rw [← Int.zero_sub, ← Int.sub_emod_emod, h, Int.sub_emod_emod, Int.zero_sub]
  exact ⟨((turned_rotateLeft hw x a).congr h).unique (turned_rotateLeft hw x b),
    ((turned_rotateRight hw x a).congr hneg).unique (turned_rotateRight hw x b)⟩

end

end

/-! ## Masked counts -/

/-- The count that is left when all bits go that make whole turns, for a width of `2 ^ k`. It is the
same to cut the count to 32 bits before or after. -/
theorem toNat_masked {k : Nat} (hk : k ≤ w) (hk32 : k ≤ 32) (a : BitVec w) :
    (a.setWidth 32 &&& BitVec.ofNat 32 (2 ^ k - 1)).toNat = a.toNat % 2 ^ k ∧
      ((a &&& BitVec.ofNat w (2 ^ k - 1)).setWidth 32).toNat = a.toNat % 2 ^ k := by
  have hmask : ∀ v, k ≤ v → (2 ^ k - 1) % 2 ^ v = 2 ^ k - 1 := by
    intro v hv
    have hpos := Nat.two_pow_pos k
    have hle : 2 ^ k ≤ 2 ^ v := Nat.pow_le_pow_right (by decide) hv
    exact Nat.mod_eq_of_lt (by omega)
  constructor
  · rw [BitVec.toNat_and, BitVec.toNat_setWidth, BitVec.toNat_ofNat, hmask 32 hk32,
      Nat.and_two_pow_sub_one_eq_mod, Nat.mod_mod_of_dvd _ (Nat.pow_dvd_pow 2 hk32)]
  · have hlt : a.toNat % 2 ^ k < 2 ^ 32 :=
      Nat.lt_of_lt_of_le (Nat.mod_lt _ (Nat.two_pow_pos k)) (Nat.pow_le_pow_right (by decide) hk32)
    rw [BitVec.toNat_setWidth, BitVec.toNat_and, BitVec.toNat_ofNat, hmask w hk,
      Nat.and_two_pow_sub_one_eq_mod, Nat.mod_eq_of_lt hlt]

theorem toNat_masked_width (t : IntType) (a : BitVec t.width) :
    (a.setWidth 32 &&& BitVec.ofNat 32 (t.width - 1)).toNat = a.toNat % t.width ∧
      ((a &&& BitVec.ofNat t.width (t.width - 1)).setWidth 32).toNat = a.toNat % t.width := by
  cases t with
  | i32 => exact toNat_masked (k := 5) (by decide) (by decide) a
  | i64 => exact toNat_masked (k := 6) (by decide) (by decide) a

end Word

namespace Numeric

open Word

/-- A word turned to the left by a count, how it is turned back, and how further. -/
structure RotatedLeft (t : IntType) (x a y : BitVec t.width) : Prop where
  eval : IntOp.rotl.eval x a = .ok y
  bits : ∀ i < t.width, y.getLsbD i = x.getLsbD (((i : Int) - a.toInt) % t.width).toNat
  back : IntOp.rotr.eval y a = .ok x
  further : ∀ b, IntOp.rotl.eval y b = IntOp.rotl.eval x (a + b)

/-- A word turned to the right by a count, how it is turned back, and that this is a turn to the
left. -/
structure RotatedRight (t : IntType) (x a y : BitVec t.width) : Prop where
  eval : IntOp.rotr.eval x a = .ok y
  bits : ∀ i < t.width, y.getLsbD i = x.getLsbD (((i : Int) + a.toInt) % t.width).toNat
  back : IntOp.rotl.eval y a = .ok x
  negated : IntOp.rotl.eval x (-a) = .ok y

/-- Rotations of a word by all counts. The count may be masked before or after it is cut to 32
bits. -/
structure TurnsByCounts (t : IntType) (x : BitVec t.width) : Prop where
  left : ∀ a, ∃ y, RotatedLeft t x a y
  right : ∀ a, ∃ y, RotatedRight t x a y
  congr : ∀ a b : BitVec t.width, a.toInt % t.width = b.toInt % t.width →
    IntOp.rotl.eval x a = IntOp.rotl.eval x b ∧ IntOp.rotr.eval x a = IntOp.rotr.eval x b
  masked : ∀ a : BitVec t.width, ∀ count ∈ [a.setWidth 32 &&& BitVec.ofNat 32 (t.width - 1),
      (a &&& BitVec.ofNat t.width (t.width - 1)).setWidth 32],
    IntOp.rotl.eval x a = .ok (x.rotateLeft count.toNat) ∧
      IntOp.rotr.eval x a = .ok (x.rotateRight count.toNat)

theorem rotatedLeft (t : IntType) (x a : BitVec t.width) :
    RotatedLeft t x a (rotateLeft x a) where
  eval := rfl
  bits := turned_rotateLeft t.width_dvd x a
  back := congrArg Except.ok (rotateRight_rotateLeft t.width_dvd x a)
  further b := congrArg Except.ok (rotateLeft_rotateLeft t.width_dvd x a b)

theorem rotatedRight (t : IntType) (x a : BitVec t.width) :
    RotatedRight t x a (rotateRight x a) where
  eval := rfl
  bits i hi := by rw [turned_rotateRight t.width_dvd x a i hi, Int.sub_neg]
  back := congrArg Except.ok (rotateLeft_rotateRight t.width_dvd x a)
  negated := congrArg Except.ok (rotateRight_eq_rotateLeft_neg t.width_dvd x a).symm

/-- In either width, for every word and every count, negative and extreme ones among them. A
rotation never traps and turns the circle of the bits, to the left by the count and to the right by
as much the other way. So the two undo each other, one rotation after another is one by the sum, a
rotation to the right is one to the left by the negated count, where sum and negation may wrap, and
counts that differ by whole turns do the same. -/
theorem rotations_turn_by_counts (t : IntType) (x : BitVec t.width) : TurnsByCounts t x where
  left a := ⟨rotateLeft x a, rotatedLeft t x a⟩
  right a := ⟨rotateRight x a, rotatedRight t x a⟩
  congr a b h := by
    obtain ⟨hleft, hright⟩ := rotations_congr t.width_dvd x h
    exact ⟨congrArg Except.ok hleft, congrArg Except.ok hright⟩
  masked a count hcount := by
    have hmasked : count.toNat = a.toNat % t.width := by
      rw [List.mem_cons, List.mem_singleton] at hcount
      rcases hcount with rfl | rfl
      · exact (toNat_masked_width t a).1
      · exact (toNat_masked_width t a).2
    rw [hmasked, BitVec.rotateLeft_mod_eq_rotateLeft, BitVec.rotateRight_mod_eq_rotateRight]
    exact ⟨rfl, rfl⟩

/-- The least count, whose negation is itself, makes whole turns. -/
theorem least_count_turns_nothing :
    (BitVec.intMin 32).toInt % 32 = (0#32).toInt % 32 ∧
      IntOp.rotl.eval 0xDEADBEEF#32 (BitVec.intMin 32) = .ok 0xDEADBEEF#32 := by
  have hleast : (BitVec.intMin 32).toInt % 32 = (0#32).toInt % 32 := by decide
  obtain ⟨hleft, _⟩ :=
    (rotations_turn_by_counts .i32 0xDEADBEEF#32).congr (BitVec.intMin 32) 0#32 hleast
  exact ⟨hleast, hleft.trans rfl⟩

end Numeric
end WasmHost
