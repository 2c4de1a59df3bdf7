import WasmHost.Signature
import WasmHost.Text.Hex

/-!
# WasmHost.Trap

The causes for which guest code stops, and the text of each.
-/

namespace WasmHost

/-- An access outside a memory or a table. -/
inductive RangeFault where
  | addressOverflow (position offset : Nat)
  | outOfBounds (address width len : Nat)
  | tableIndex (index len : Nat)
  deriving DecidableEq

/-- An indirect call that finds no function of the signature asked for. -/
inductive CallFault where
  | undefinedElement (index len : Nat)
  | emptySlot (index : Nat)
  | signatureMismatch (expected actual : SignatureId)
  deriving DecidableEq

inductive Trap where
  | range (fault : RangeFault)
  | unreachable
  | callIndirect (fault : CallFault)
  | divideByZero
  | intOverflow
  | invalidConversion
  | exhaustion
  deriving DecidableEq

/-- Traps by their cause alone, without what is told about it. -/
inductive TrapKind where
  | range
  | unreachable
  | callIndirect
  | divideByZero
  | intOverflow
  | invalidConversion
  | exhaustion
  deriving DecidableEq

def TrapKind.name : TrapKind → String
  | .range => "Range"
  | .unreachable => "Unreachable"
  | .callIndirect => "CallIndirect"
  | .divideByZero => "DivideByZero"
  | .intOverflow => "IntOverflow"
  | .invalidConversion => "InvalidConversion"
  | .exhaustion => "Exhaustion"

namespace RangeFault

def message : RangeFault → String
  | .addressOverflow position offset =>
    "out of bounds memory access: address " ++ Text.Hex.address position ++ " + offset "
      ++ Text.Hex.address offset ++ " overflows 32 bits"
  | .outOfBounds address width len =>
    "out of bounds memory access: " ++ toString width ++ " bytes at " ++ Text.Hex.address address
      ++ ", memory is " ++ toString len ++ " bytes"
  | .tableIndex index len =>
    "out of bounds table access: index " ++ toString index ++ ", table size " ++ toString len

end RangeFault

namespace CallFault

def message : CallFault → String
  | .undefinedElement index len =>
    "undefined element: index " ++ toString index ++ ", table size " ++ toString len
  | .emptySlot index => "uninitialized element " ++ toString index
  | .signatureMismatch expected actual =>
    "indirect call type mismatch: expected signature " ++ toString expected.index ++ ", found "
      ++ toString actual.index

end CallFault

namespace Trap

def kind : Trap → TrapKind
  | .range _ => .range
  | .unreachable => .unreachable
  | .callIndirect _ => .callIndirect
  | .divideByZero => .divideByZero
  | .intOverflow => .intOverflow
  | .invalidConversion => .invalidConversion
  | .exhaustion => .exhaustion

def message : Trap → String
  | .range fault => fault.message
  | .unreachable => "unreachable executed"
  | .callIndirect fault => fault.message
  | .divideByZero => "integer divide by zero"
  | .intOverflow => "integer overflow"
  | .invalidConversion => "invalid conversion to integer"
  | .exhaustion => "call stack exhausted"

/-- Only a call stack that ran out is exhaustion. -/
def isExhaustion (t : Trap) : Bool := t == .exhaustion

theorem isExhaustion_iff {t : Trap} : t.isExhaustion = true ↔ t = .exhaustion := by
  simp [isExhaustion]

theorem isExhaustion_iff_kind {t : Trap} : t.isExhaustion = true ↔ t.kind = .exhaustion := by
  rw [isExhaustion_iff]
  cases t <;> simp [kind]

end Trap

end WasmHost
