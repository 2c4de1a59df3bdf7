import WasmHost.Proofs.Interner.Run

/-!
# WasmHost.Proofs.Interner.Numbering

What a run of registrations shows of an interner: the answers, the size and the events. All three
are fixed by the list of distinct types in the order of first sight, and by nothing else of the run.

* `events_run`: the events tell that list, in order.
* `run_numbers_types_in_first_seen_order`: answers, size and events of any run.
-/

namespace WasmHost
namespace Interner

/-- The event that tells of a new type in its place. -/
def newType (t : FuncType) (place : Nat) : Event :=
  .signatureInterned ⟨place⟩ t.params.length t.results.length

theorem events_concat (i : Interner) (ops : List Op) (op : Op) :
    i.events (ops ++ [op]) = i.events ops ++ ((i.run ops).perform op).2.2 := by
  induction ops generalizing i with
  | nil => simp [events, run]
  | cons first rest ih =>
    rw [List.cons_append, events, ih, events, List.append_assoc]
    rfl

theorem length_distinct_le (before after : List Op) :
    (distinct before).length ≤ (distinct (before ++ after)).length := by
  obtain ⟨new, hnew⟩ := distinct_append before after
  rw [hnew, List.length_append]
  omega

/-- A call sends an event exactly when it names a type that no call before it named. -/
theorem events_of_accepted {before : List Op} (hb : (distinct before).length < 2 ^ 32) {op : Op}
    {t : FuncType} (h : op.type? = some t) :
    ((empty.run before).perform op).2.2 =
      if t ∈ distinct before then [] else [newType t (distinct before).length] := by
  have hi := numbers_run before
  by_cases ht : t ∈ distinct before
  · obtain ⟨k, hk⟩ := List.mem_iff_getElem?.mp ht
    rw [perform_seen hi h hk, if_pos ht]
  · rw [perform_new hi h ht, if_neg ht, newType, Nat.mod_eq_of_lt hb]

theorem events_run {ops : List Op} (hops : (distinct ops).length < 2 ^ 32) :
    empty.events ops = (distinct ops).zipIdx.map (fun p => newType p.1 p.2) := by
  induction ops using List.reverseRecOn with
  | nil => rfl
  | append_singleton ops op ih =>
    have hle := length_distinct_le ops [op]
    have hlt : (distinct ops).length < 2 ^ 32 := by omega
    rw [events_concat, ih hlt]
    cases h : op.type? with
    | none => rw [perform_refused _ h, distinct_concat_none h, List.append_nil]
    | some t =>
      rw [events_of_accepted hlt h]
      by_cases ht : t ∈ distinct ops
      · rw [if_pos ht, distinct_concat_seen h ht, List.append_nil]
      · rw [if_neg ht, distinct_concat_new h ht, List.zipIdx_append, List.map_append]
        simp

theorem refused_iff (i : Interner) (op : Op) :
    (i.perform op).2.1 = none ↔
      ∃ n k types, op = .registerFlat n k types ∧ types.length ≠ n + k := by
  constructor
  · intro h
    cases op with
    | register t => rw [perform_accepted i rfl] at h; cases h
    | registerFlat n k types =>
      refine ⟨n, k, types, rfl, ?_⟩
      rw [← FuncType.ofFlat?_eq_none_iff]
      cases hop : (Op.registerFlat n k types).type? with
      | none => exact hop
      | some t => rw [perform_accepted i hop] at h; cases h
  · rintro ⟨n, k, types, rfl, hlen⟩
    have hop : (Op.registerFlat n k types).type? = none := FuncType.ofFlat?_eq_none_iff.mpr hlen
    rw [perform_refused i hop]

/-- Over a whole run of calls on a new interner, refused ones anywhere in it: two calls are answered
the same number exactly when they name the same type, and the type first seen in the `k`-th place
has number `k`, so the numbers given are those below the size, which is the count of the types and
never falls. Both forms of a call do the same in every state; a call is refused exactly when its
list does not have the length its counts say, and then changes and sends nothing. The events are one
for each type, in the order of the numbers, each sent by the first call that names its type. -/
theorem run_numbers_types_in_first_seen_order (ops : List Op)
    (hops : (distinct ops).length < 2 ^ 32) :
    (∀ t u a b, Issued ops t a → Issued ops u b → (a = b ↔ t = u)) ∧
    (∀ k t, (distinct ops)[k]? = some t → Issued ops t ⟨k⟩) ∧
    (∀ a, (∃ t, Issued ops t a) ↔ a.index < (empty.run ops).size) ∧
    (empty.run ops).size = (distinct ops).length ∧
    (∀ before after, ops = before ++ after → (empty.run before).size ≤ (empty.run ops).size) ∧
    (∀ (i : Interner) params results, i.perform (.register ⟨params, results⟩) =
      i.perform (.registerFlat params.length results.length (params ++ results))) ∧
    (∀ (i : Interner) op, (i.perform op).2.1 = none ↔
      ∃ n k types, op = .registerFlat n k types ∧ types.length ≠ n + k) ∧
    (∀ (i : Interner) op, (i.perform op).2.1 = none → i.perform op = (i, none, [])) ∧
    (∀ before op after t, ops = before ++ op :: after → op.type? = some t →
      ((empty.run before).perform op).2.2 =
        if t ∈ distinct before then [] else [newType t (distinct before).length]) ∧
    empty.events ops = (distinct ops).zipIdx.map (fun p => newType p.1 p.2) ∧
    (∀ e ∈ empty.events ops, e.level = .debug ∧ e.message = "interned new signature") := by
  have hsize := (numbers_run ops).size
  refine ⟨?_, ?_, ?_, hsize, ?_, ?_, fun i op => refused_iff i op, ?_, ?_, events_run hops, ?_⟩
  · intro t u a b ha hb
    exact issued_inj hops ha hb
  · intro k t hk
    exact (issued_iff_place hops).mpr hk
  · intro a
    rw [hsize]
    constructor
    · rintro ⟨t, h⟩
      exact (List.getElem?_eq_some_iff.mp ((issued_iff_place hops).mp h)).1
    · intro h
      exact ⟨(distinct ops)[a.index], (issued_iff_place hops).mpr (List.getElem?_eq_getElem h)⟩
  · rintro before after rfl
    rw [hsize, (numbers_run before).size]
    exact length_distinct_le before after
  · intro i params results
    rfl
  · intro i op h
    cases hop : op.type? with
    | none => exact perform_refused i hop
    | some t => rw [perform_accepted i hop] at h; cases h
  · rintro before op after t rfl h
    have hle := length_distinct_le before (op :: after)
    exact events_of_accepted (by omega) h
  · intro e he
    rw [events_run hops, List.mem_map] at he
    obtain ⟨p, _, rfl⟩ := he
    exact ⟨rfl, rfl⟩

/-- One flat list cut in two ways, with a refused call between and a repeated one behind. -/
def twoCuts : List Op :=
  [.register ⟨[.i32], []⟩, .registerFlat 2 1 [.i32], .registerFlat 0 1 [.i32],
    .registerFlat 1 0 [.i32]]

theorem twoCuts_numbered :
    (distinct twoCuts).length < 2 ^ 32 ∧ Issued twoCuts ⟨[.i32], []⟩ ⟨0⟩ ∧
      Issued twoCuts ⟨[], [.i32]⟩ ⟨1⟩ ∧ (empty.run twoCuts).size = 2 := by
  have h : (distinct twoCuts).length < 2 ^ 32 := by decide
  obtain ⟨_, hplace, _, hsize, _⟩ := run_numbers_types_in_first_seen_order twoCuts h
  exact ⟨h, hplace 0 _ rfl, hplace 1 _ rfl, hsize⟩

end Interner
end WasmHost
