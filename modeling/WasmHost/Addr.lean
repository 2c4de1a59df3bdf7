import WasmHost.LinkError

/-!
# WasmHost.Addr

Addresses of the objects that modules share. Two handles are the same object exactly when they
are the same address.
-/

namespace WasmHost

/-- The place of an object among the objects of its kind, in the order of creation. -/
structure Addr (k : ExternKind) where
  index : Nat
  deriving DecidableEq

end WasmHost
