import WasmHost.Numeric.Eval

/-!
# WasmHost.Proofs.Numeric.Division

Integer division. A quotient and a remainder are known by the dividend that they make up, by the
size of the remainder and by its sign; this leaves only the quotient that is cut toward zero. Under
the signed reading the quotient of two words is a word too, unless the divisor is zero or the two
are one pair.

* `Division.quotient_eq`: no quotient but the one toward zero.
* `div_eq_error_iff`, `rem_eq_error_iff`: the traps.
* `signed_division`, `unsigned_division`: the words that are answered.
* `division_cuts_toward_zero`: the outcomes of all four instructions.
-/

namespace WasmHost

/-- Division among the integers. The remainder is less than the divisor, and on the side of zero on
which the dividend is. -/
structure Division (a b q r : Int) : Prop where
  sum_eq : a = q * b + r
  natAbs_lt : r.natAbs < b.natAbs
  sign_eq : r = 0 ∨ r.sign = a.sign

namespace Division

variable {a b q r : Int}

theorem of_tdiv (a : Int) (hb : b ≠ 0) : Division a b (a.tdiv b) (a.tmod b) := by
  refine ⟨(Int.tdiv_mul_add_tmod a b).symm, ?_, ?_⟩
  · rw [Int.natAbs_tmod]
    exact Nat.mod_lt _ (Int.natAbs_pos.mpr hb)
  · by_cases hdvd : b ∣ a
    · exact .inl (Int.tmod_eq_zero_of_dvd hdvd)
    · exact .inr (by rw [Int.sign_tmod, if_neg hdvd])

theorem remainder_nonneg (h : Division a b q r) (ha : 0 ≤ a) : 0 ≤ r := by
  rcases h.sign_eq with hzero | hside
  · exact Int.le_of_eq hzero.symm
  · exact Int.sign_nonneg_iff.mp (hside ▸ Int.sign_nonneg_iff.mpr ha)

theorem remainder_nonpos (h : Division a b q r) (ha : a ≤ 0) : r ≤ 0 := by
  rcases h.sign_eq with hzero | hside
  · exact Int.le_of_eq hzero
  · exact Int.sign_nonpos_iff.mp (hside ▸ Int.sign_nonpos_iff.mpr ha)

theorem quotient_eq (h : Division a b q r) : q = a.tdiv b := by
  have hlt := h.natAbs_lt
  have hb : b ≠ 0 := by omega
  have hsum : r + b * q = a := by rw [h.sum_eq, Int.mul_comm, Int.add_comm]
  rcases Int.le_total 0 a with ha | ha
  · have hr := h.remainder_nonneg ha
    exact ((Int.tdiv_tmod_unique ha hb).mpr ⟨hsum, hr, by omega⟩).1.symm
  · have hr := h.remainder_nonpos ha
    exact ((Int.tdiv_tmod_unique' ha hb).mpr ⟨hsum, by omega, hr⟩).1.symm

end Division

namespace Word

variable {w : Nat} {a b : BitVec w}

/-- The least word by minus one: the pair whose signed quotient is no word. -/
def Overflows (a b : BitVec w) : Prop := a.toInt = -(2 ^ (w - 1) : Nat) ∧ b.toInt = -1

theorem overflows_iff (hw : 0 < w) : Overflows a b ↔ a = BitVec.intMin w ∧ b = -1#w := by
  have hleast : (BitVec.intMin w).toInt = -(2 ^ (w - 1) : Nat) := by
    rw [BitVec.toInt_intMin_of_pos hw]
    rfl
  have hminus : (-1#w).toInt = -1 := by
    rw [BitVec.neg_one_eq_allOnes, BitVec.toInt_allOnes, if_pos hw]
  rw [Overflows, ← hleast, ← hminus, BitVec.toInt_inj, BitVec.toInt_inj]

theorem toInt_ne_zero (hb : b ≠ 0#w) : b.toInt ≠ 0 := by
  rw [← BitVec.toInt_zero (w := w)]
  exact BitVec.toInt_ne.mpr hb

theorem Overflows.ne_zero (h : Overflows a b) : b ≠ 0#w := by
  rintro rfl
  have hminus := h.2
  rw [BitVec.toInt_zero] at hminus
  contradiction

/-! ## The traps -/

theorem div_zero (s : Signedness) (a : BitVec w) : div s a 0#w = .error .divideByZero := if_pos rfl

theorem div_of_overflows (hw : 0 < w) (h : Overflows a b) :
    div .signed a b = .error .intOverflow := by
  rw [div, if_neg h.ne_zero]
  exact if_pos ((overflows_iff hw).mp h)

theorem div_signed (hw : 0 < w) (hb : b ≠ 0#w) (hfits : ¬ Overflows a b) :
    div .signed a b = .ok (a.sdiv b) := by
  rw [div, if_neg hb]
  exact if_neg (mt (overflows_iff hw).mpr hfits)

theorem div_unsigned (hb : b ≠ 0#w) : div .unsigned a b = .ok (a / b) := if_neg hb

theorem div_eq_error_iff (hw : 0 < w) {s : Signedness} {trap : Trap} :
    div s a b = .error trap ↔ trap = .divideByZero ∧ b = 0#w ∨
      trap = .intOverflow ∧ s = .signed ∧ Overflows a b := by
  by_cases hb : b = 0#w
  · have hfits : ¬ Overflows a b := fun h => h.ne_zero hb
    subst hb
    simp [div_zero, hfits, eq_comm]
  · cases s with
    | unsigned => simp [div_unsigned hb, hb]
    | signed =>
      by_cases hover : Overflows a b
      · simp [div_of_overflows hw hover, hb, hover, eq_comm]
      · simp [div_signed hw hb hover, hb, hover]

theorem rem_eq_error_iff {s : Signedness} {trap : Trap} :
    rem s a b = .error trap ↔ trap = .divideByZero ∧ b = 0#w := by
  unfold rem
  split
  · rename_i hzero
    simp [hzero, eq_comm]
  · rename_i hzero
    cases s <;> simp [hzero]

/-! ## The words -/

theorem rem_signed (hb : b ≠ 0#w) : rem .signed a b = .ok (a.srem b) := if_neg hb

/-- The pair has no quotient, but it has a remainder. -/
theorem rem_of_overflows (h : Overflows a b) : rem .signed a b = .ok 0#w := by
  have hzero : (a.srem b).toInt = (0#w).toInt := by
    rw [BitVec.toInt_srem, h.2, BitVec.toInt_zero]
    exact Int.tmod_eq_zero_of_dvd (Int.neg_dvd.mpr (Int.one_dvd _))
  rw [rem_signed h.ne_zero, BitVec.toInt_inj.mp hzero]

theorem signed_division (hw : 0 < w) (hb : b ≠ 0#w) (hfits : ¬ Overflows a b) :
    ∃ q r, div .signed a b = .ok q ∧ rem .signed a b = .ok r ∧
      Division a.toInt b.toInt q.toInt r.toInt := by
  refine ⟨_, _, div_signed hw hb hfits, rem_signed hb, ?_⟩
  rw [overflows_iff hw, Decidable.not_and_iff_not_or_not] at hfits
  rw [BitVec.toInt_sdiv_of_ne_or_ne a b hfits, BitVec.toInt_srem]
  exact .of_tdiv _ (toInt_ne_zero hb)

theorem unsigned_division (hb : b ≠ 0#w) :
    ∃ q r, div .unsigned a b = .ok q ∧ rem .unsigned a b = .ok r ∧
      a.toNat = q.toNat * b.toNat + r.toNat ∧ r.toNat < b.toNat := by
  refine ⟨a / b, a % b, div_unsigned hb, if_neg hb, ?_, ?_⟩
  · rw [BitVec.toNat_udiv, BitVec.toNat_umod, Nat.div_add_mod']
  · exact BitVec.umod_lt a ((BitVec.pos_iff_ne_zero b).mpr hb)

end Word

namespace Numeric

/-- What the four instructions answer for a dividend and a divisor. -/
structure DividesTowardZero (t : IntType) (a b : BitVec t.width) : Prop where
  div_error_iff : ∀ s trap, (IntOp.div s).eval a b = .error trap ↔
    trap = .divideByZero ∧ b = 0#t.width ∨
      trap = .intOverflow ∧ s = .signed ∧
        a.toInt = -(2 ^ (t.width - 1) : Nat) ∧ b.toInt = -1
  rem_error_iff : ∀ s trap, (IntOp.rem s).eval a b = .error trap ↔
    trap = .divideByZero ∧ b = 0#t.width
  rem_least : a.toInt = -(2 ^ (t.width - 1) : Nat) ∧ b.toInt = -1 →
    (IntOp.rem .signed).eval a b = .ok 0#t.width
  signed : b ≠ 0#t.width → ¬ (a.toInt = -(2 ^ (t.width - 1) : Nat) ∧ b.toInt = -1) →
    ∃ q r, (IntOp.div .signed).eval a b = .ok q ∧ (IntOp.rem .signed).eval a b = .ok r ∧
      Division a.toInt b.toInt q.toInt r.toInt ∧ q.toInt = a.toInt.tdiv b.toInt
  unsigned : b ≠ 0#t.width →
    ∃ q r, (IntOp.div .unsigned).eval a b = .ok q ∧ (IntOp.rem .unsigned).eval a b = .ok r ∧
      a.toNat = q.toNat * b.toNat + r.toNat ∧ r.toNat < b.toNat

/-- Of the words of either width, for every dividend and every divisor. A divisor of zero traps all
four instructions, the least word by minus one traps the signed division besides, and there are no
other traps; the signed remainder of that pair is zero. All other pairs have a quotient and a
remainder that make up the dividend, under the signed reading as under the unsigned one. The signed
remainder is on the side of the dividend, so the quotient is cut toward zero. -/
theorem division_cuts_toward_zero (t : IntType) (a b : BitVec t.width) :
    DividesTowardZero t a b where
  div_error_iff _ _ := Word.div_eq_error_iff t.width_pos
  rem_error_iff _ _ := Word.rem_eq_error_iff
  rem_least := Word.rem_of_overflows
  signed hb hfits := by
    obtain ⟨q, r, hq, hr, hdivision⟩ := Word.signed_division t.width_pos hb hfits
    exact ⟨q, r, hq, hr, hdivision, hdivision.quotient_eq⟩
  unsigned := Word.unsigned_division

/-- Toward zero, not down; and the pair without a quotient has a remainder. -/
theorem division_of_minus_seven :
    2#32 ≠ 0#32 ∧ ¬ ((-7#32).toInt = -(2 ^ 31 : Nat) ∧ (2#32).toInt = -1) ∧
      (∃ q r, (IntOp.div .signed).eval (-7#32) 2#32 = .ok q ∧
        (IntOp.rem .signed).eval (-7#32) 2#32 = .ok r ∧ q.toInt = -3 ∧
          Division (-7) 2 q.toInt r.toInt) ∧
      ((BitVec.intMin 32).toInt = -(2 ^ 31 : Nat) ∧ (-1#32).toInt = -1) ∧
      (IntOp.rem .signed).eval (BitVec.intMin 32) (-1#32) = .ok 0#32 := by
  have hb : 2#32 ≠ 0#32 := by decide
  have hfits : ¬ ((-7#32).toInt = -(2 ^ 31 : Nat) ∧ (2#32).toInt = -1) := by decide
  have hleast : (BitVec.intMin 32).toInt = -(2 ^ 31 : Nat) ∧ (-1#32).toInt = -1 := by decide
  obtain ⟨q, r, hq, hr, hdivision, hquotient⟩ :=
    (division_cuts_toward_zero .i32 (-7#32) 2#32).signed hb hfits
  exact ⟨hb, hfits, ⟨q, r, hq, hr, hquotient, hdivision⟩, hleast,
    (division_cuts_toward_zero .i32 (BitVec.intMin 32) (-1#32)).rem_least hleast⟩

end Numeric
end WasmHost
