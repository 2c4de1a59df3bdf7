import WasmHost.Proofs.Numeric.ExactTruncation

/-!
# WasmHost.Proofs.Numeric.Saturation

Saturating truncations beside the trapping ones. The bounds at which one family clamps are not those
at which the other traps: between the two lie numbers that are given away early here and cast there,
and both ways have to lead to one word.

* `read_leastWord`, `read_greatestWord`: the words at the ends of the range.
* `truncateSat_within`, `truncateSat_below`, `truncateSat_above`: a saturating truncation, by the
  whole part of the value.
* `saturates`: both truncations side by side, as a relation with a case for each way to end.
* `saturation_follows_trapping`: the saturating answer, from what the trapping truncation does.
-/

namespace WasmHost

namespace Signedness

/-- The sign bit and no other, or no bit at all. -/
def leastWord (w : Nat) : Signedness → BitVec w
  | .signed => BitVec.intMin w
  | .unsigned => 0#w

/-- All bits but the sign bit, or all bits. -/
def greatestWord (w : Nat) : Signedness → BitVec w
  | .signed => BitVec.intMax w
  | .unsigned => BitVec.allOnes w

variable (s : Signedness) {w : Nat}

theorem read_leastWord (hw : 0 < w) : s.read (s.leastWord w) = s.lowest w := by
  cases s with
  | signed =>
    rw [read, leastWord, lowest, BitVec.toInt_intMin_of_pos hw]
    push_cast
    rfl
  | unsigned => simp [read, leastWord, lowest]

theorem read_greatestWord (w : Nat) : s.read (s.greatestWord w) = s.highest w := by
  have hpos := Nat.two_pow_pos w
  cases s with
  | signed => simp [read, greatestWord, highest, BitVec.toInt_intMax]
  | unsigned =>
    simp only [read, greatestWord, highest, BitVec.toNat_allOnes]
    omega

theorem ofInt_lowest (hw : 0 < w) : BitVec.ofInt w (s.lowest w) = s.leastWord w :=
  ((s.read_eq_iff hw).mp (s.read_leastWord hw)).2.symm

theorem ofInt_highest (hw : 0 < w) : BitVec.ofInt w (s.highest w) = s.greatestWord w :=
  ((s.read_eq_iff hw).mp (s.read_greatestWord w)).2.symm

end Signedness

/-! ## Signs -/

namespace Binary

variable {e m : Nat} {x : Binary e m}

theorem isNaN_zero : (zero e m).isNaN = false := by
  simp [zero, isNaN]

theorem scaled_zero : (zero e m).scaled = 0 := by
  simp [scaled, zero, units_zero]

theorem lt_zero_of_truncated_neg (hx : x.isNaN = false) (h : x.truncated < 0) :
    x.lt (zero e m) = true := by
  rw [lt_iff hx isNaN_zero, scaled_zero]
  rw [truncated_eq] at h
  by_contra hnonneg
  have hcut := Int.tdiv_nonneg (Int.not_lt.mp hnonneg) (Int.natCast_nonneg (one e m))
  omega

theorem zero_lt_of_truncated_pos (hx : x.isNaN = false) (h : 0 < x.truncated) :
    (zero e m).lt x = true := by
  rw [lt_iff isNaN_zero hx, scaled_zero]
  rw [truncated_eq] at h
  by_contra hnonpos
  have hcut := Int.tdiv_nonneg (a := -x.scaled) (by omega) (Int.natCast_nonneg (one e m))
  rw [Int.neg_tdiv] at hcut
  omega

end Binary

namespace Numeric

open Binary

/-- What a saturating truncation of `x` answers, beside what the trapping one does. -/
inductive Saturates {w : Nat} (s : Signedness) {e m : Nat} (x : Binary e m) :
    Except Trap (BitVec w) → BitVec w → Prop
  | answered (n : BitVec w) : Saturates s x (.ok n) n
  | invalid : x.isNaN = true → Saturates s x (.error .invalidConversion) 0
  | below : x.lt (zero e m) = true → Saturates s x (.error .intOverflow) (s.leastWord w)
  | above : (zero e m).lt x = true → Saturates s x (.error .intOverflow) (s.greatestWord w)

namespace Saturates

variable {e m w : Nat} {s : Signedness} {x : Binary e m} {y : BitVec w}

theorem eq_of_ok {n : BitVec w} (h : Saturates s x (.ok n) y) : y = n := by
  cases h with
  | answered => rfl

theorem eq_zero (h : Saturates s x (.error .invalidConversion) y) : y = 0 := by
  cases h with
  | invalid _ => rfl

theorem eq_end (h : Saturates s x (.error .intOverflow) y) :
    x.lt (zero e m) = true ∧ y = s.leastWord w ∨
      (zero e m).lt x = true ∧ y = s.greatestWord w := by
  cases h with
  | below hneg => exact .inl ⟨hneg, rfl⟩
  | above hpos => exact .inr ⟨hpos, rfl⟩

theorem trap_cases {trap : Trap} (h : Saturates s x (.error trap) y) :
    trap = .invalidConversion ∨ trap = .intOverflow := by
  cases h with
  | invalid _ => exact .inl rfl
  | below _ => exact .inr rfl
  | above _ => exact .inr rfl

end Saturates

/-- The saturating truncation by what the trapping one does. -/
structure FollowsTrapping (t : IntType) (f : FloatType) (s : Signedness)
    (x : Binary f.exponentBits f.fractionBits) : Prop where
  answered : ∀ n, truncate t f s x = .ok n → truncateSat t f s x = n
  invalid : truncate t f s x = .error .invalidConversion → truncateSat t f s x = 0
  overflow : truncate t f s x = .error .intOverflow →
    x.lt (zero _ _) = true ∧ truncateSat t f s x = s.leastWord t.width ∨
      (zero _ _).lt x = true ∧ truncateSat t f s x = s.greatestWord t.width
  trap_cases : ∀ trap, truncate t f s x = .error trap →
    trap = .invalidConversion ∨ trap = .intOverflow
  infinite : x.isInfinite = true → truncate t f s x = .error .intOverflow ∧
    truncateSat t f s x = if x.sign then s.leastWord t.width else s.greatestWord t.width

section

variable (t : IntType) (f : FloatType) (s : Signedness)
  (x : Binary f.exponentBits f.fractionBits)

theorem truncateSat_of_isNaN (hx : x.isNaN = true) : truncateSat t f s x = 0 := by
  unfold truncateSat
  rw [hx, if_pos rfl]

theorem truncateSat_within (hx : x.isNaN = false) (hlow : s.lowest t.width ≤ x.truncated)
    (hhigh : x.truncated ≤ s.highest t.width) :
    truncateSat t f s x = BitVec.ofInt t.width x.truncated := by
  rw [truncateSat_eq, toWord_fitting t f s x hx, Int.min_eq_right hhigh, Int.max_eq_right hlow]

theorem truncateSat_below (hx : x.isNaN = false) (h : x.truncated < s.lowest t.width) :
    truncateSat t f s x = s.leastWord t.width := by
  have hends := Int.le_trans (s.lowest_le t.width) (s.highest_nonneg t.width)
  rw [truncateSat_eq, toWord_fitting t f s x hx, Int.min_eq_right (by omega),
    Int.max_eq_left (by omega), s.ofInt_lowest t.width_pos]

theorem truncateSat_above (hx : x.isNaN = false) (h : s.highest t.width < x.truncated) :
    truncateSat t f s x = s.greatestWord t.width := by
  have hends := Int.le_trans (s.lowest_le t.width) (s.highest_nonneg t.width)
  rw [truncateSat_eq, toWord_fitting t f s x hx, Int.min_eq_left (by omega),
    Int.max_eq_right (by omega), s.ofInt_highest t.width_pos]

/-- The clamps and the guards agree, on the numbers between their bounds too. -/
theorem saturates : Saturates s x (truncate t f s x) (truncateSat t f s x) := by
  cases hx : x.isNaN with
  | true =>
    rw [truncate_of_isNaN t f s x hx, truncateSat_of_isNaN t f s x hx]
    exact .invalid hx
  | false =>
    have hlow := s.lowest_le t.width
    have hhigh := s.highest_nonneg t.width
    rw [truncate_eq t f s x hx]
    by_cases hbelow : x.truncated < s.lowest t.width
    · rw [if_neg (by omega), truncateSat_below t f s x hx hbelow]
      exact .below (lt_zero_of_truncated_neg hx (by omega))
    · by_cases habove : s.highest t.width < x.truncated
      · rw [if_neg (by omega), truncateSat_above t f s x hx habove]
        exact .above (zero_lt_of_truncated_pos hx (by omega))
      · rw [if_pos (by omega), truncateSat_within t f s x hx (by omega) (by omega)]
        exact .answered _

theorem truncateSat_of_isInfinite (hx : x.isInfinite = true) :
    truncateSat t f s x = if x.sign then s.leastWord t.width else s.greatestWord t.width := by
  have hnan := isNaN_of_isInfinite hx
  have hbeyond := truncated_beyond_words (Nat.le_trans (by decide) f.le_bias) t.width_le s hx
  cases hsign : x.sign with
  | true =>
    rw [hsign, if_pos rfl] at hbeyond
    rw [if_pos rfl]
    exact truncateSat_below t f s x hnan hbeyond
  | false =>
    rw [hsign, if_neg Bool.false_ne_true] at hbeyond
    rw [if_neg Bool.false_ne_true]
    exact truncateSat_above t f s x hnan hbeyond

end

/-- For each of the eight truncations and every float. Where the trapping one answers, the
saturating one answers the same word; where it finds an invalid conversion, the saturating one
answers zero; and where it overflows, the float is on one side of zero, and the answer is the word
at that end of the range. There is no other trap. Both infinities overflow, each on the side of its
sign. -/
theorem saturation_follows_trapping (t : IntType) (f : FloatType) (s : Signedness)
    (x : Binary f.exponentBits f.fractionBits) : FollowsTrapping t f s x := by
  have h := saturates t f s x
  refine ⟨?_, ?_, ?_, ?_, ?_⟩
  · intro n hn
    rw [hn] at h
    exact h.eq_of_ok
  · intro hinvalid
    rw [hinvalid] at h
    exact h.eq_zero
  · intro hoverflow
    rw [hoverflow] at h
    exact h.eq_end
  · intro trap htrap
    rw [htrap] at h
    exact h.trap_cases
  · intro hinf
    exact ⟨truncate_of_isInfinite t f s x hinf, truncateSat_of_isInfinite t f s x hinf⟩

/-- A half above the greatest unsigned word the trapping truncation still cuts, and the saturating
one clamps. As a signed word the number is too great. The other two operands are a NaN and negative
infinity. -/
theorem saturation_half_above_words :
    truncate .i32 .f64 .unsigned (.ofBits 0x41EFFFFFFFF00000#64) = .ok (BitVec.allOnes 32) ∧
      truncateSat .i32 .f64 .unsigned (.ofBits 0x41EFFFFFFFF00000#64) = BitVec.allOnes 32 ∧
      truncate .i32 .f64 .signed (.ofBits 0x41EFFFFFFFF00000#64) = .error .intOverflow ∧
      truncateSat .i32 .f64 .signed (.ofBits 0x41EFFFFFFFF00000#64) = BitVec.intMax 32 ∧
      truncate .i64 .f32 .signed (.ofBits 0x7F800001#32) = .error .invalidConversion ∧
      truncateSat .i64 .f32 .signed (.ofBits 0x7F800001#32) = 0 ∧
      truncateSat .i64 .f32 .signed (.ofBits 0xFF800000#32) = BitVec.intMin 64 := by
  have hword : truncate .i32 .f64 .unsigned (.ofBits 0x41EFFFFFFFF00000#64) =
      .ok (BitVec.allOnes 32) := by decide +kernel
  have hover : truncate .i32 .f64 .signed (.ofBits 0x41EFFFFFFFF00000#64) =
      .error .intOverflow := by decide +kernel
  have hpositive : ¬ (Binary.ofBits 0x41EFFFFFFFF00000#64 : F64).lt (zero _ _) = true := by decide
  have hnan : truncate .i64 .f32 .signed (.ofBits 0x7F800001#32) =
      .error .invalidConversion := by decide
  refine ⟨hword, (saturation_follows_trapping .i32 .f64 .unsigned _).answered _ hword, hover, ?_,
    hnan, (saturation_follows_trapping .i64 .f32 .signed _).invalid hnan, ?_⟩
  · rcases (saturation_follows_trapping .i32 .f64 .signed _).overflow hover with h | h
    · exact absurd h.1 hpositive
    · exact h.2
  · exact ((saturation_follows_trapping .i64 .f32 .signed (.ofBits 0xFF800000#32)).infinite rfl).2

end Numeric
end WasmHost
