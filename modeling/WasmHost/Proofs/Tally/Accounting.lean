import WasmHost.Proofs.Binary.NaN
import WasmHost.Proofs.Text.Value
import WasmHost.Tally

/-!
# WasmHost.Proofs.Tally.Accounting

What a tally says after any number of assertions, and how assertions about one result agree.

* `judge_cases`: on every way through an assertion it is counted once, and reported as an error
  exactly if it fails.
* `holds_judge`: what an assertion answers is decided by its result alone.
* `run_after`, `passed_after`: the counts, by induction on the assertions.
* `tally_counts_what_holds`: all of it together.
-/

namespace WasmHost

namespace Value

def isNaN : Value → Bool
  | .f32 x => x.isNaN
  | .f64 x => x.isNaN
  | .i32 _ => false
  | .i64 _ => false

theorem isNaNOf_arithmetic_of_canonical {v : Value} (h : v.isNaNOf .canonicalNaN = true) :
    v.isNaNOf .arithmeticNaN = true := by
  cases v with
  | f32 x => exact Binary.isArithmeticNaN_of_isCanonicalNaN h
  | f64 x => exact Binary.isArithmeticNaN_of_isCanonicalNaN h
  | i32 x => cases h
  | i64 x => cases h

theorem isNaN_of_isNaNOf_arithmetic {v : Value} (h : v.isNaNOf .arithmeticNaN = true) :
    v.isNaN = true := by
  cases v with
  | f32 x => exact Binary.isNaN_of_isArithmeticNaN (by decide) h
  | f64 x => exact Binary.isNaN_of_isArithmeticNaN (by decide) h
  | i32 x => cases h
  | i64 x => cases h

end Value

/-! ## One assertion -/

namespace Tally

/-- How many of the events are errors. -/
def errors (events : List Event) : Nat := events.countP fun event => event.level == .error

variable (t : Tally) (name : String)

/-- All that an assertion can do. -/
theorem judge_cases (c : Check) :
    (∃ events, errors events = 0 ∧ t.judge name c = ⟨t.record true, true, events⟩) ∨
      ∃ failure, t.judge name c = ⟨t.record false, false, [.assertionFailed name failure]⟩ := by
  cases c with
  | traps shown result =>
    cases result with
    | ok x => exact .inr ⟨_, rfl⟩
    | error trap => exact .inl ⟨_, rfl, rfl⟩
  | exhausts shown result =>
    cases result with
    | ok x => exact .inr ⟨_, rfl⟩
    | error trap =>
      simp only [judge, exhausts]
      split
      · exact .inl ⟨_, rfl, rfl⟩
      · exact .inr ⟨_, rfl⟩
  | returns result =>
    cases result with
    | ok x => exact .inl ⟨_, rfl, rfl⟩
    | error trap => exact .inr ⟨_, rfl⟩
  | returnsValue expected result =>
    cases result with
    | ok v =>
      simp only [judge, returnsValue]
      split
      · exact .inl ⟨_, rfl, rfl⟩
      · exact .inr ⟨_, rfl⟩
    | error trap => exact .inr ⟨_, rfl⟩
  | returnsNaN test result =>
    cases result with
    | ok v =>
      simp only [judge, returnsNaN]
      cases v.isNaNOf test with
      | true => exact .inl ⟨_, rfl, rfl⟩
      | false => exact .inr ⟨_, rfl⟩
    | error trap => exact .inr ⟨_, rfl⟩

theorem tally_judge (c : Check) :
    (t.judge name c).tally = t.record (t.judge name c).holds := by
  rcases t.judge_cases name c with ⟨events, _, h⟩ | ⟨failure, h⟩
  · rw [h]
  · rw [h]

theorem errors_judge (c : Check) :
    errors (t.judge name c).events = if (t.judge name c).holds then 0 else 1 := by
  rcases t.judge_cases name c with ⟨events, hnone, h⟩ | ⟨failure, h⟩
  · rw [h]
    exact hnone
  · rw [h]
    rfl

end Tally

/-- What an assertion answers to a tally that has counted nothing yet. -/
def Check.passes (c : Check) : Bool := (Tally.empty.judge "" c).holds

/-- What an assertion answers is decided by its result alone. -/
theorem Tally.holds_judge (t : Tally) (name : String) (c : Check) :
    (t.judge name c).holds = c.passes := by
  cases c with
  | traps shown result =>
    cases result with
    | ok x => rfl
    | error trap => rfl
  | exhausts shown result =>
    cases result with
    | ok x => rfl
    | error trap =>
      simp only [Check.passes, judge, exhausts]
      split
      · rfl
      · rfl
  | returns result =>
    cases result with
    | ok x => rfl
    | error trap => rfl
  | returnsValue expected result =>
    cases result with
    | ok v =>
      simp only [Check.passes, judge, returnsValue]
      split
      · rfl
      · rfl
    | error trap => rfl
  | returnsNaN test result =>
    cases result with
    | ok v => rfl
    | error trap => rfl

/-! ## Assertions about one result -/

namespace Check

section

variable {α : Type} {shown : α → String} {result : Except Trap α}

theorem passes_traps_iff : (traps shown result).passes = true ↔ ∃ trap, result = .error trap := by
  cases result with
  | ok x => simp [passes, Tally.judge, Tally.traps]
  | error trap => simp [passes, Tally.judge, Tally.traps]

theorem passes_exhausts_iff :
    (exhausts shown result).passes = true ↔ result = .error .exhaustion := by
  cases result with
  | ok x => simp [passes, Tally.judge, Tally.exhausts]
  | error trap =>
    rw [Except.error.injEq, ← Trap.isExhaustion_iff]
    cases h : trap.isExhaustion with
    | true => simp [passes, Tally.judge, Tally.exhausts, h]
    | false => simp [passes, Tally.judge, Tally.exhausts, h]

theorem passes_returns_iff : (returns result).passes = true ↔ ∃ x, result = .ok x := by
  cases result with
  | ok x => simp [passes, Tally.judge, Tally.returns]
  | error trap => simp [passes, Tally.judge, Tally.returns, Tally.trapped]

end

section

variable {result : Except Trap Value}

theorem passes_returnsValue_iff {expected : Value} :
    (returnsValue expected result).passes = true ↔ result = .ok expected := by
  cases result with
  | ok v =>
    by_cases h : v = expected
    · simp [passes, Tally.judge, Tally.returnsValue, h]
    · simp [passes, Tally.judge, Tally.returnsValue, h]
  | error trap => simp [passes, Tally.judge, Tally.returnsValue, Tally.trapped]

theorem passes_returnsNaN_iff {test : Numeric.FloatTest} :
    (returnsNaN test result).passes = true ↔ ∃ v, result = .ok v ∧ v.isNaNOf test = true := by
  cases result with
  | ok v => simp [passes, Tally.judge, Tally.returnsNaN]
  | error trap => simp [passes, Tally.judge, Tally.returnsNaN, Tally.trapped]

end

/-- How the assertions that ask nothing of a value agree about a result. -/
structure EndingsAgree {α : Type} (shown : α → String) (result : Except Trap α) : Prop where
  /-- Exactly one of the two holds. -/
  either : (traps shown result).passes = !(returns result).passes
  exhaustion : (exhausts shown result).passes = true → (traps shown result).passes = true

theorem endingsAgree {α : Type} (shown : α → String) (result : Except Trap α) :
    EndingsAgree shown result := by
  constructor
  case either =>
    rw [Bool.eq_not_iff, ne_eq, Bool.eq_iff_iff, passes_traps_iff, passes_returns_iff]
    cases result with
    | ok x => simp
    | error trap => simp
  case exhaustion =>
    intro h
    exact passes_traps_iff.mpr ⟨_, passes_exhausts_iff.mp h⟩

/-- How those that ask for a value agree. -/
structure ValuesAgree (result : Except Trap Value) : Prop where
  value_iff : ∀ expected, (returnsValue expected result).passes = true ↔
    ∃ v, result = .ok v ∧ v.typ = expected.typ ∧ v.bits = expected.bits
  canonical : (returnsNaN .canonicalNaN result).passes = true →
    (returnsNaN .arithmeticNaN result).passes = true
  arithmetic : (returnsNaN .arithmeticNaN result).passes = true →
    (returns result).passes = true ∧ ∃ v, result = .ok v ∧ v.isNaN = true

theorem valuesAgree (result : Except Trap Value) : ValuesAgree result := by
  constructor
  case value_iff =>
    intro expected
    simp only [passes_returnsValue_iff, ← Value.eq_iff_typ_and_bits]
    constructor
    · intro h
      exact ⟨expected, h, rfl⟩
    · rintro ⟨v, h, rfl⟩
      exact h
  case canonical =>
    intro h
    obtain ⟨v, hv, hnan⟩ := passes_returnsNaN_iff.mp h
    exact passes_returnsNaN_iff.mpr ⟨v, hv, Value.isNaNOf_arithmetic_of_canonical hnan⟩
  case arithmetic =>
    intro h
    obtain ⟨v, hv, hnan⟩ := passes_returnsNaN_iff.mp h
    exact ⟨passes_returns_iff.mpr ⟨v, hv⟩, v, hv, Value.isNaN_of_isNaNOf_arithmetic hnan⟩

end Check

/-! ## Any number of assertions -/

namespace Tally

/-- The tally after assertions made one after the other, each under a name. -/
def after (t : Tally) (calls : List (String × Check)) : Tally :=
  calls.foldl (fun t call => (t.judge call.1 call.2).tally) t

/-- What each of the assertions leaves. -/
def verdicts (t : Tally) : List (String × Check) → List Verdict
  | [] => []
  | (name, c) :: rest => t.judge name c :: verdicts (t.judge name c).tally rest

theorem holds_verdicts (t : Tally) (calls : List (String × Check)) :
    (t.verdicts calls).map Verdict.holds = calls.map fun call => call.2.passes := by
  induction calls generalizing t with
  | nil => rfl
  | cons call rest ih =>
    obtain ⟨name, c⟩ := call
    simp only [verdicts, List.map_cons, holds_judge, ih]

theorem errors_of_mem_verdicts {t : Tally} {calls : List (String × Check)} {v : Verdict}
    (h : v ∈ t.verdicts calls) : errors v.events = if v.holds then 0 else 1 := by
  induction calls generalizing t with
  | nil => cases h
  | cons call rest ih =>
    obtain ⟨name, c⟩ := call
    rcases List.mem_cons.mp h with rfl | hrest
    · exact t.errors_judge name c
    · exact ih hrest

theorem run_after {t : Tally} {calls : List (String × Check)}
    (h : t.run + calls.length < 2 ^ 32) : (t.after calls).run = t.run + calls.length := by
  induction calls generalizing t with
  | nil => rfl
  | cons call rest ih =>
    rw [List.length_cons] at h ⊢
    have hstep : (t.judge call.1 call.2).tally.run = t.run + 1 := by
      rw [tally_judge]
      exact Nat.mod_eq_of_lt (by omega)
    have hrest := ih (t := (t.judge call.1 call.2).tally) (by omega)
    rw [hstep] at hrest
    have hafter : t.after (call :: rest) = (t.judge call.1 call.2).tally.after rest := rfl
    rw [hafter, hrest]
    omega

theorem passed_after {t : Tally} {calls : List (String × Check)}
    (h : t.passed + calls.length < 2 ^ 32) :
    (t.after calls).passed = t.passed + (t.verdicts calls).countP Verdict.holds := by
  induction calls generalizing t with
  | nil => rfl
  | cons call rest ih =>
    obtain ⟨name, c⟩ := call
    rw [List.length_cons] at h
    have hstep : (t.judge name c).tally.passed =
        t.passed + if (t.judge name c).holds then 1 else 0 := by
      rw [tally_judge]
      cases (t.judge name c).holds with
      | true => exact Nat.mod_eq_of_lt (by omega)
      | false => rfl
    have hle : (t.judge name c).tally.passed ≤ t.passed + 1 := by
      rw [hstep]
      split
      · exact Nat.le_refl _
      · exact Nat.le_succ _
    have hrest := ih (t := (t.judge name c).tally) (by omega)
    have hafter : t.after ((name, c) :: rest) = (t.judge name c).tally.after rest := rfl
    rw [hafter, hrest, hstep, verdicts, List.countP_cons]
    omega

/-- What a tally that was empty says after the assertions, and what they answered. -/
structure Accounts (calls : List (String × Check)) (t : Tally) (answers : List Verdict) :
    Prop where
  answered : answers.map Verdict.holds = calls.map fun call => call.2.passes
  run_eq : t.run = calls.length
  passed_eq : t.passed = answers.countP Verdict.holds
  passed_le : t.passed ≤ t.run
  allPassed_iff : t.allPassed = true ↔ ∀ v ∈ answers, v.holds = true
  text_eq : t.text = toString (answers.countP Verdict.holds) ++ "/" ++ toString calls.length ++
    " tests passed."
  errors_eq : ∀ v ∈ answers, errors v.events = if v.holds then 0 else 1

theorem accounts_of_length_lt {calls : List (String × Check)} (h : calls.length < 2 ^ 32) :
    Accounts calls (empty.after calls) (empty.verdicts calls) := by
  have hanswered := holds_verdicts empty calls
  have hlength : (empty.verdicts calls).length = calls.length := by
    simpa using congrArg List.length hanswered
  have hrun : (empty.after calls).run = calls.length := by
    rw [run_after (by simpa [empty] using h)]
    exact Nat.zero_add _
  have hpassed : (empty.after calls).passed = (empty.verdicts calls).countP Verdict.holds := by
    rw [passed_after (by simpa [empty] using h)]
    exact Nat.zero_add _
  constructor
  case answered => exact hanswered
  case run_eq => exact hrun
  case passed_eq => exact hpassed
  case passed_le =>
    rw [hrun, hpassed, ← hlength]
    exact List.countP_le_length
  case allPassed_iff =>
    rw [allPassed, beq_iff_eq, hrun, hpassed, ← hlength, List.countP_eq_length]
  case text_eq => rw [text, hrun, hpassed]
  case errors_eq =>
    intro v hv
    exact errors_of_mem_verdicts hv

/-- Fewer than `2 ^ 32` assertions, about results of any types, are all counted, and those that hold
too. So the tally says that all passed exactly if each did, its text tells the two counts, and each
that failed sent one error and each that passed none. What assertions say of one result agrees. -/
theorem tally_counts_what_holds :
    (∀ calls : List (String × Check), calls.length < 2 ^ 32 →
      Accounts calls (empty.after calls) (empty.verdicts calls)) ∧
    (∀ {α : Type} (shown : α → String) (result : Except Trap α),
      Check.EndingsAgree shown result) ∧
    ∀ result : Except Trap Value, Check.ValuesAgree result :=
  ⟨fun _ h => accounts_of_length_lt h, Check.endingsAgree, Check.valuesAgree⟩

/-- Two assertions hold and two fail, one of them because a trap is not the one asked for. -/
def twoOfFour : List (String × Check) :=
  [("div", .traps Value.text (.error .divideByZero)), ("ok", .traps Value.text (.ok (.i32 1))),
    ("deep", .exhausts Value.text (.error .exhaustion)),
    ("shallow", .exhausts Value.text (.error .unreachable))]

theorem two_of_four_pass :
    twoOfFour.length < 2 ^ 32 ∧ (empty.after twoOfFour).run = 4 ∧
      (empty.after twoOfFour).passed = 2 ∧ (empty.after twoOfFour).allPassed = false ∧
      (empty.after twoOfFour).text = "2/4 tests passed." := by
  have hlength : twoOfFour.length < 2 ^ 32 := by decide
  have haccounts := tally_counts_what_holds.1 twoOfFour hlength
  have hrun : (empty.after twoOfFour).run = 4 := haccounts.run_eq
  have hpassed : (empty.after twoOfFour).passed = 2 := haccounts.passed_eq
  refine ⟨hlength, hrun, hpassed, ?_, haccounts.text_eq⟩
  rw [allPassed, hrun, hpassed]
  rfl

end Tally
end WasmHost
