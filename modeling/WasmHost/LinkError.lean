import WasmHost.ValType

/-!
# WasmHost.LinkError

What can go wrong between modules and their host before any guest code runs.
-/

namespace WasmHost

/-- The kinds of things that a module exports. A constant is an immutable global. -/
inductive ExternKind where
  | function
  | table
  | memory
  | global
  | constant
  deriving DecidableEq

/-- Why a memory or a table cannot be made; `other` gives a reason in words of its own. -/
inductive LimitFault where
  | memoryMaximum (max limit : Nat)
  | memoryInitial (initial max : Nat)
  | tableInitial (length max : Nat)
  | tableMaximum (length limit : Nat)
  | other (text : String)
  deriving DecidableEq

inductive LinkError where
  | unknownImport (module field : String)
  | kindMismatch (module field : String) (expected actual : ExternKind)
  | globalTypeMismatch (expected actual : ValType)
  | invalidLimits (fault : LimitFault)
  deriving DecidableEq

namespace ExternKind

def all : List ExternKind := [.function, .table, .memory, .global, .constant]

def name : ExternKind → String
  | .function => "function"
  | .table => "table"
  | .memory => "memory"
  | .global => "global"
  | .constant => "constant"

def ofName? (s : String) : Option ExternKind := all.find? (fun k => k.name == s)

theorem ofName?_name (k : ExternKind) : ofName? k.name = some k := by cases k <;> rfl

end ExternKind

namespace LimitFault

def message : LimitFault → String
  | .memoryMaximum max limit =>
    "Maximum size " ++ toString max ++ " pages exceeds system maximum " ++ toString limit
      ++ " pages"
  | .memoryInitial initial max =>
    "Initial size " ++ toString initial ++ " pages exceeds specified maximum " ++ toString max
      ++ " pages"
  | .tableInitial length max =>
    "Initial table size " ++ toString length ++ " exceeds specified maximum " ++ toString max
  | .tableMaximum length limit =>
    "Initial table size " ++ toString length ++ " exceeds system maximum " ++ toString limit
  | .other text => text

end LimitFault

namespace LinkError

/-- What went wrong, in one word. -/
def kindName : LinkError → String
  | .unknownImport .. => "UnknownImport"
  | .kindMismatch .. => "KindMismatch"
  | .globalTypeMismatch .. => "GlobalTypeMismatch"
  | .invalidLimits _ => "InvalidLimits"

def message : LinkError → String
  | .unknownImport module field => "unknown import: " ++ module ++ "." ++ field
  | .kindMismatch module field expected actual =>
    "incompatible import type for " ++ module ++ "." ++ field ++ ": expected " ++ expected.name
      ++ ", got " ++ actual.name
  | .globalTypeMismatch expected actual =>
    "global type mismatch: expected " ++ expected.name ++ ", got " ++ actual.name
  | .invalidLimits fault => "invalid limits: " ++ fault.message

end LinkError

end WasmHost
