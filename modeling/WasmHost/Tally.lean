import WasmHost.Event
import WasmHost.Numeric.Eval

/-!
# WasmHost.Tally

Assertions about results, and the count of those that hold. An assertion that fails is counted and
reported, and nothing more: a script goes on after it.
-/

namespace WasmHost

/-- The value is a float, of either type, and a NaN of the class. -/
def Value.isNaNOf (test : Numeric.FloatTest) : Value → Bool
  | .f32 x => test.holds x
  | .f64 x => test.holds x
  | .i32 _ => false
  | .i64 _ => false

/-- What a script asserts of a result. -/
inductive Assertion where
  | traps
  | exhausts
  | returns
  /-- Returns the value, floats compared by bits. -/
  | returnsValue (expected : Value)
  | returnsNaN (test : Numeric.FloatTest)
  deriving DecidableEq

/-- An assertion with the result that it judges. Whether there was a trap is asked of results of any
type; where a report shows what was returned instead, it shows it as a text. -/
inductive Check : Type 1 where
  | traps {α : Type} (shown : α → String) (result : Except Trap α)
  | exhausts {α : Type} (shown : α → String) (result : Except Trap α)
  | returns {α : Type} (result : Except Trap α)
  | returnsValue (expected : Value) (result : Except Trap Value)
  | returnsNaN (test : Numeric.FloatTest) (result : Except Trap Value)

/-- The assertion about a result that is a value. -/
def Assertion.on : Assertion → Except Trap Value → Check
  | .traps, result => .traps Value.text result
  | .exhausts, result => .exhausts Value.text result
  | .returns, result => .returns result
  | .returnsValue expected, result => .returnsValue expected result
  | .returnsNaN test, result => .returnsNaN test result

structure Tally where
  run : Nat
  passed : Nat
  deriving DecidableEq

/-- What an assertion leaves: the tally, whether it holds, and what it reported. -/
structure Verdict where
  tally : Tally
  holds : Bool
  events : List Event

namespace Tally

def empty : Tally := ⟨0, 0⟩

instance : Inhabited Tally := ⟨empty⟩

def allPassed (t : Tally) : Bool := t.passed == t.run

/-- The counts are words of 32 bits. -/
def record (t : Tally) (ok : Bool) : Tally :=
  ⟨(t.run + 1) % 2 ^ 32, if ok then (t.passed + 1) % 2 ^ 32 else t.passed⟩

/-- A result that should not have been a trap. -/
def trapped (t : Tally) (name : String) (trap : Trap) : Verdict :=
  ⟨t.record false, false, [.assertionFailed name (.trapped trap)]⟩

/-- Any trap will do, and it is reported too. -/
def traps {α : Type} (t : Tally) (name : String) (shown : α → String) :
    Except Trap α → Verdict
  | .error trap => ⟨t.record true, true, [.trappedAsExpected name trap]⟩
  | .ok x => ⟨t.record false, false, [.assertionFailed name (.noTrap (shown x))]⟩

/-- Only a call stack that ran out will do. -/
def exhausts {α : Type} (t : Tally) (name : String) (shown : α → String) :
    Except Trap α → Verdict
  | .error trap =>
    if trap.isExhaustion then
      ⟨t.record true, true, []⟩
    else
      ⟨t.record false, false, [.assertionFailed name (.notExhaustion trap)]⟩
  | .ok x => ⟨t.record false, false, [.assertionFailed name (.noTrap (shown x))]⟩

/-- Whatever was returned will do. -/
def returns {α : Type} (t : Tally) (name : String) : Except Trap α → Verdict
  | .ok _ => ⟨t.record true, true, []⟩
  | .error trap => t.trapped name trap

def returnsValue (t : Tally) (name : String) (expected : Value) : Except Trap Value → Verdict
  | .ok v =>
    if v = expected then
      ⟨t.record true, true, []⟩
    else
      ⟨t.record false, false, [.assertionFailed name (.differs expected v)]⟩
  | .error trap => t.trapped name trap

def returnsNaN (t : Tally) (name : String) (test : Numeric.FloatTest) :
    Except Trap Value → Verdict
  | .error trap => t.trapped name trap
  | .ok v =>
    let ok := v.isNaNOf test
    ⟨t.record ok, ok, if ok then [] else [.assertionFailed name (.notNaN test v)]⟩

def judge (t : Tally) (name : String) : Check → Verdict
  | .traps shown result => t.traps name shown result
  | .exhausts shown result => t.exhausts name shown result
  | .returns result => t.returns name result
  | .returnsValue expected result => t.returnsValue name expected result
  | .returnsNaN test result => t.returnsNaN name test result

def check (t : Tally) (name : String) (a : Assertion) (result : Except Trap Value) : Verdict :=
  t.judge name (a.on result)

def text (t : Tally) : String := toString t.passed ++ "/" ++ toString t.run ++ " tests passed."

end Tally

end WasmHost
