import WasmHost.Proofs.Safety.Memory
import WasmHost.Proofs.Safety.Numeric
import WasmHost.Proofs.Safety.Table

/-!
# WasmHost.Proofs.Safety.Host

No guest stops the host. Memories and tables are what their operations leave of an allocation, and
an instruction has any operands; from there every step of the host is defined, and the steps
together are the operation.

* `guests_never_stop_the_host`: all of it.
-/

namespace WasmHost
namespace Host

/-- Taken step by step, with 64 bits for a length, no operation on a memory or a table that can come
about has a step that is not defined, whatever its arguments, and no run of operations has one; nor
has any instruction. In each case the answer, a trap or not, is that of the operation itself. A
segment for a table is a slice of the host, which has fewer than `2 ^ 63` elements. -/
theorem guests_never_stop_the_host :
    (∀ initial max, Memory.strictAllocate initial max =
      some (Memory.allocate initial.toNat max.toNat)) ∧
    (∀ m, Memory.Reachable m →
      m.strictSize = m.size ∧
      (∀ op, m.strictPerform op = some (m.perform op)) ∧
      ∀ ops, m.strictRun ops = some (m.run ops)) ∧
    (∀ t, Table.Reachable t →
      t.strictSize = t.size ∧
      (∀ op, op.Fits → t.strictPerform op = some (t.perform op)) ∧
      ∀ ops, (∀ op ∈ ops, op.Fits) → t.strictRun ops = some (t.run ops)) ∧
    (∀ (op : Numeric.Op) (args : Args), op.strictEval args = some (op.eval args)) := by
  refine ⟨Memory.strictAllocate_eq, ?memory, ?table, Numeric.Op.strictEval_eq⟩
  case memory =>
    intro m hm
    have hwf := Memory.wellFormed_of_reachable hm
    exact ⟨Memory.strictSize_eq hwf, Memory.strictPerform_eq hwf, Memory.strictRun_eq hwf⟩
  case table =>
    intro t ht
    obtain ⟨max, hsized⟩ := Table.sized_of_reachable ht
    exact ⟨Table.strictSize_eq hsized, fun op hop => Table.strictPerform_eq hsized hop,
      fun ops hops => Table.strictRun_eq hsized hops⟩

/-- A segment of two elements, the first of them at the last index that is a word. -/
def lastIndexAndNext : Table.Op := .init 4294967295 [⟨⟨0⟩, ⟨0⟩⟩, ⟨⟨0⟩, ⟨0⟩⟩]

/-- Where the arithmetic is nearest to its limits: a length of 64 bits at the last address, growth
to all the pages there are, a segment behind the last index, the quotient that is no word, and a
word that is rounded up to the next power of two. -/
theorem limits_do_not_stop :
    ((Memory.zeroed 0 65536).strictPerform (.read 4294967295 (2 ^ 64 - 1))).map Outcome.result =
      some (.error (.range (.outOfBounds 4294967295 (2 ^ 64 - 1) 0))) ∧
    ((Memory.zeroed 0 65536).strictPerform (.grow 65536)).map Outcome.result =
      some (.ok (.grown 0)) ∧
    ((Table.empty 1 1).strictPerform lastIndexAndNext).map Outcome.result =
      some (.error (.range (.tableIndex 4294967295 1))) ∧
    (Numeric.Op.int .i32 (.div .signed)).strictEval [.i32 (BitVec.intMin 32), .i32 (-1)] =
      some (.error .intOverflow) ∧
    (Numeric.Op.convert .f32 .i64).strictEval [.i64 (-1)] =
      some (.ok (.value (.f32 (.ofBits 0x5F800000)))) := by
  obtain ⟨_, hmemory, htable, hnumeric⟩ := guests_never_stop_the_host
  have hmade : Memory.allocate 0 65536 = .ok (Memory.zeroed 0 65536) := rfl
  have htmade : Table.allocate 1 1 = .ok (Table.empty 1 1) := rfl
  have hfits : lastIndexAndNext.Fits := show 2 < 2 ^ 63 by decide
  refine ⟨?_, ?_, ?_, ?_, ?_⟩
  · rw [(hmemory _ (.allocate hmade)).2.1]
    rfl
  · rw [(hmemory _ (.allocate hmade)).2.1]
    rfl
  · rw [(htable _ (.allocate htmade)).2.1 _ hfits]
    rfl
  · rw [hnumeric]
    rfl
  · rw [hnumeric]
    rfl

end Host
end WasmHost
