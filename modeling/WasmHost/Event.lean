import WasmHost.Numeric.Op
import WasmHost.Trap
import WasmHost.LinkError

/-!
# WasmHost.Event

What the host reports while it works: growth, new signatures, exports and imports, printed
arguments and the outcome of assertions. Each event has a level, a message and named fields. Values
in a message are written with the printer that it is made for.
-/

namespace WasmHost

/-- Why an assertion does not hold of a result. -/
inductive AssertionFailure where
  /-- What was returned instead, as a text. -/
  | noTrap (value : String)
  | notExhaustion (trap : Trap)
  | trapped (trap : Trap)
  | differs (expected actual : Value)
  | notNaN (test : Numeric.FloatTest) (actual : Value)
  deriving DecidableEq

inductive Event where
  | memoryGrown (oldPages newPages : Nat)
  | memoryDeltaRejected (delta : Int)
  | memoryGrowRejected (oldPages : Nat) (delta : Int) (maxPages : Nat)
  | tableGrown (oldSize newSize : Nat)
  | tableGrowRejected (oldSize delta limit : Nat)
  | signatureInterned (id : SignatureId) (numParams numResults : Nat)
  | exported (module field : String) (kind : ExternKind)
  | imported (module field : String) (kind : ExternKind)
  | aliased (target source : String) (count : Nat)
  | spectestRegistered (module : String)
  | printed (field : String) (args : List Value)
  | trappedAsExpected (name : String) (trap : Trap)
  | assertionFailed (name : String) (failure : AssertionFailure)
  deriving DecidableEq

namespace Event

inductive Level where
  | error
  | info
  | debug
  | trace
  deriving DecidableEq

inductive Field where
  | number (n : Int)
  | text (s : String)
  deriving DecidableEq

namespace Level

def name : Level → String
  | .error => "ERROR"
  | .info => "INFO"
  | .debug => "DEBUG"
  | .trace => "TRACE"

end Level

def level : Event → Level
  | .memoryGrown .. => .debug
  | .memoryDeltaRejected .. => .trace
  | .memoryGrowRejected .. => .trace
  | .tableGrown .. => .debug
  | .tableGrowRejected .. => .trace
  | .signatureInterned .. => .debug
  | .exported .. => .debug
  | .imported .. => .trace
  | .aliased .. => .debug
  | .spectestRegistered .. => .debug
  | .printed .. => .info
  | .trappedAsExpected .. => .trace
  | .assertionFailed .. => .error

/-- Printed arguments go to a channel of their own, all other events to the common one. -/
def channel? : Event → Option String
  | .printed .. => some "spectest"
  | _ => none

/-- The arguments in brackets behind the field, each as its text, blanks between them. -/
def printedText (p : FloatPrinter) (field : String) (args : List Value) : String :=
  field ++ "(" ++ " ".intercalate (args.map (Value.textWith p)) ++ ")"

def failureText (p : FloatPrinter) (name : String) : AssertionFailure → String
  | .noTrap _ => "expected " ++ name ++ " to trap"
  | .notExhaustion _ => "expected " ++ name ++ " to trap due to exhaustion"
  | .trapped _ => name ++ " trapped"
  | .differs expected actual =>
    "in " ++ name ++ ": expected " ++ expected.textWith p ++ ", got " ++ actual.textWith p
  | .notNaN test actual =>
    "in " ++ name ++ ": expected " ++ test.word ++ " nan, got " ++ actual.textWith p

def messageWith (p : FloatPrinter) : Event → String
  | .memoryGrown .. => "memory grown"
  | .memoryDeltaRejected .. => "memory.grow rejected: delta out of range"
  | .memoryGrowRejected .. => "memory.grow rejected: exceeds maximum"
  | .tableGrown .. => "table grown"
  | .tableGrowRejected .. => "table.grow rejected"
  | .signatureInterned .. => "interned new signature"
  | .exported .. => "export"
  | .imported .. => "import"
  | .aliased .. => "registered module alias"
  | .spectestRegistered .. => "registered spectest host module"
  | .printed field args => printedText p field args
  | .trappedAsExpected .. => "trapped as expected"
  | .assertionFailed name failure => failureText p name failure

def message (e : Event) : String := e.messageWith .hexadecimal

/-- The fields a failed assertion adds to its name. -/
def failureFields : AssertionFailure → List (String × Field)
  | .noTrap value => [("value", .text value)]
  | .notExhaustion trap => [("trap", .text trap.message)]
  | .trapped trap => [("trap", .text trap.message)]
  | .differs .. => []
  | .notNaN .. => []

def fields : Event → List (String × Field)
  | .memoryGrown oldPages newPages =>
    [("old_pages", .number oldPages), ("new_pages", .number newPages)]
  | .memoryDeltaRejected delta => [("additional_pages", .number delta)]
  | .memoryGrowRejected oldPages delta maxPages =>
    [("old_pages", .number oldPages), ("additional_pages", .number delta),
      ("max_pages", .number maxPages)]
  | .tableGrown oldSize newSize => [("old_size", .number oldSize), ("new_size", .number newSize)]
  | .tableGrowRejected oldSize delta limit =>
    [("old_size", .number oldSize), ("delta", .number delta), ("limit", .number limit)]
  | .signatureInterned id numParams numResults =>
    [("id", .number id.index), ("num_params", .number numParams),
      ("num_results", .number numResults)]
  | .exported module field kind =>
    [("module", .text module), ("field", .text field), ("kind", .text kind.name)]
  | .imported module field kind =>
    [("module", .text module), ("field", .text field), ("kind", .text kind.name)]
  | .aliased target source count =>
    [("alias", .text target), ("from", .text source), ("count", .number count)]
  | .spectestRegistered module => [("module", .text module)]
  | .printed .. => []
  | .trappedAsExpected name trap => [("name", .text name), ("trap", .text trap.message)]
  | .assertionFailed name failure => ("name", .text name) :: failureFields failure

end Event

end WasmHost
