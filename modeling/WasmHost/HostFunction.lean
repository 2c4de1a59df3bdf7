import WasmHost.Memory.Access
import WasmHost.Numeric.Eval
import WasmHost.Addr
import WasmHost.Text.Quoted

/-!
# WasmHost.HostFunction

Host functions and what they do when called. A body refers to the objects it works on through
`ρ`, one type for each kind of object, and to signatures through `σ`: names while it is written
down, addresses and numbers once it is made.

A host may be given any code at all as a function. The bodies here are a closed list that stands for
such code: they return, trap, compute, load, store, grow a memory, count with a global, call through
a table, call other functions and print. No body puts something into a slot, grows a table or gives
a global a value of its choice; a script does that itself, through its handles.
-/

namespace WasmHost

/-- What a function does: one of these, and nothing else that a host could be programmed to do. -/
inductive Body (ρ : ExternKind → Type) (σ : Type) where
  | const (values : List Value)
  | trap (t : Trap)
  | echo
  | numeric (op : Numeric.Op)
  /-- Loads at the first argument. -/
  | load (memory : ρ .memory) (k : LoadKind)
  /-- Stores the second argument at the first. -/
  | store (memory : ρ .memory) (k : StoreKind)
  /-- Grows by the first argument. -/
  | memoryGrow (memory : ρ .memory)
  /-- Adds one to a global of type `i32` and returns what the global then holds. -/
  | bump (global : ρ .global)
  /-- Calls the function that the first argument selects, with the other arguments. -/
  | callIndirect (table : ρ .table) (signature : σ)
  /-- Calls each function with the same arguments and returns all results. -/
  | seq (functions : List (ρ .function))
  /-- Prints its arguments under the name of a field. -/
  | print (field : String)

structure HostFunction where
  name : String
  body : Body Addr SignatureId

namespace HostFunction

instance : Inhabited HostFunction := ⟨⟨"", .echo⟩⟩

/-- The description of a function shows its name and hides what it does. -/
def describe (f : HostFunction) : String :=
  "Func \x7b name: " ++ Text.Quoted.quote f.name ++ ", .. \x7d"

end HostFunction

end WasmHost
