import WasmHost.Store

/-!
# WasmHost.Call

Calling a function of the store. Calls nest: a function may call others in turn, or one that it
finds in a table. A nest of calls has a greatest depth, beyond which the call stack is exhausted.

A function made by `seq` calls only functions made before it, and one made by `callIndirect`
hands on one argument less. So a call that ends has at most one nested call for each function
and each count of arguments left, and `depthLimit` is greater than that.
-/

namespace WasmHost
namespace Store

/-- Calls each function in the state that the one before left, up to the first trap. -/
def callAll (call : Store → Addr .function → Outcome Store Trap (List Value)) (s : Store) :
    List (Addr .function) → Outcome Store Trap (List Value)
  | [] => .pure s []
  | f :: r =>
    (call s f).andThen fun s vs => (callAll call s r).map (vs ++ ·)

/-- Adds one to a global of type `i32`; one of another type stays as it is. -/
def bump (s : Store) (a : Addr .global) : Store :=
  let old := ((s.global a).toInt? .i32).getD 0
  match s.setGlobal a (.i32 (old + 1)) with
  | .ok s' => s'
  | .error _ => s

def callWithin : Nat → Store → Addr .function → Args → Outcome Store Trap (List Value)
  | 0, s, _, _ => .fail s .exhaustion
  | depth + 1, s, f, args =>
    match (s.function f).body with
    | .const values => .pure s values
    | .trap t => .fail s t
    | .echo => .pure s args
    | .numeric op => .ofExcept s ((op.eval args).map (fun answer => [answer.toValue]))
    | .load memory k =>
      .ofExcept s (((s.memory memory).loadFrom k (args.int .i32 0)).map (fun v => [v]))
    | .store memory k =>
      (s.onMemory memory (.storeTo k (args.int .i32 0) (args.value k.typ 1))).map (fun _ => [])
    | .memoryGrow memory =>
      let (m, result, event) := (s.memory memory).grow (args.int .i32 0)
      ⟨s.setMemory memory m, .ok [.i32 (BitVec.ofInt 32 result)], [event]⟩
    | .bump global => .pure (s.bump global) [(s.bump global).global global]
    | .callIndirect table signature =>
      match (s.table table).callee signature (args.int .i32 0) with
      | .error t => .fail s t
      | .ok g => callWithin depth s g (args.drop 1)
    | .seq functions => callAll (fun s g => callWithin depth s g args) s functions
    | .print field => ⟨s, .ok [], [.printed field args]⟩

def depthLimit (s : Store) (args : Args) : Nat := (args.length + 2) * (s.functions.size + 1)

theorem depthLimit_pos (s : Store) (args : Args) : 0 < s.depthLimit args :=
  Nat.mul_pos (Nat.succ_pos _) (Nat.succ_pos _)

def call (s : Store) (f : Addr .function) (args : Args) : Outcome Store Trap (List Value) :=
  callWithin (s.depthLimit args) s f args

/-- Finds a function in a table and calls it. -/
def callIndirect (s : Store) (table : Addr .table) (signature : SignatureId) (index : BitVec 32)
    (args : Args) : Outcome Store Trap (List Value) :=
  match (s.table table).callee signature index with
  | .error t => .fail s t
  | .ok f => s.call f args

end Store
end WasmHost
