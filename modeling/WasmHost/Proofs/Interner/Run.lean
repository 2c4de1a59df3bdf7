import Mathlib.Data.List.Induction
import WasmHost.Interner

/-!
# WasmHost.Proofs.Interner.Run

What an interner keeps over a whole run of registrations. A number is taken from the count of the
shapes kept before the shape itself is looked up; that no number is ever given twice rests on the
invariant of a run: the interner keeps exactly the types seen, each under its place in the order of
first sight.

* `numbers_run`: the invariant, after any run.
* `issued_iff`: the number that a type is given somewhere in a run is its place.
* `issued_inj`: two types share no number, as long as the places are words of 32 bits.
-/

namespace WasmHost
namespace Interner

/-- The function types that a run names, each once, in the order in which they are first seen. -/
def distinct (ops : List Op) : List FuncType := (ops.filterMap Op.type?).eraseDups

/-- Somewhere in a run on a new interner a call names the type and is answered the number. -/
def Issued (ops : List Op) (t : FuncType) (id : SignatureId) : Prop :=
  ∃ before op after, ops = before ++ op :: after ∧ op.type? = some t ∧
    ((empty.run before).perform op).2.1 = some id

/-- The interner keeps the types of a list and no others, each under its place. -/
structure Numbers (i : Interner) (ts : List FuncType) : Prop where
  size : i.size = ts.length
  found : ∀ t id, i.ids.find? t.shape = some id ↔ ∃ k, ts[k]? = some t ∧ id = ⟨k % 2 ^ 32⟩

/-! ## The types of a run -/

theorem mem_distinct {ops : List Op} {t : FuncType} :
    t ∈ distinct ops ↔ ∃ op ∈ ops, op.type? = some t := by
  simp [distinct]

theorem distinct_append (before after : List Op) :
    ∃ new, distinct (before ++ after) = distinct before ++ new := by
  refine ⟨((after.filterMap Op.type?).removeAll (before.filterMap Op.type?)).eraseDups, ?_⟩
  rw [distinct, List.filterMap_append, List.eraseDups_append]
  rfl

theorem distinct_concat_none {ops : List Op} {op : Op} (h : op.type? = none) :
    distinct (ops ++ [op]) = distinct ops := by
  simp [distinct, h]

theorem distinct_concat_seen {ops : List Op} {op : Op} {t : FuncType} (h : op.type? = some t)
    (ht : t ∈ distinct ops) : distinct (ops ++ [op]) = distinct ops := by
  have hmem : t ∈ ops.filterMap Op.type? := by simpa [distinct] using ht
  simp only [distinct, List.filterMap_append, List.eraseDups_append, List.filterMap_cons, h,
    List.filterMap_nil, List.removeAll, List.filter_cons, List.filter_nil]
  simp [hmem]

theorem distinct_concat_new {ops : List Op} {op : Op} {t : FuncType} (h : op.type? = some t)
    (ht : t ∉ distinct ops) : distinct (ops ++ [op]) = distinct ops ++ [t] := by
  have hmem : t ∉ ops.filterMap Op.type? := by simpa [distinct] using ht
  simp only [distinct, List.filterMap_append, List.eraseDups_append, List.filterMap_cons, h,
    List.filterMap_nil, List.removeAll, List.filter_cons, List.filter_nil]
  simp [hmem, List.eraseDups_cons]

theorem nodup_distinct (ops : List Op) : (distinct ops).Nodup := by
  induction ops using List.reverseRecOn with
  | nil => exact List.nodup_nil
  | append_singleton ops op ih =>
    cases h : op.type? with
    | none => rw [distinct_concat_none h]; exact ih
    | some t =>
      by_cases ht : t ∈ distinct ops
      · rw [distinct_concat_seen h ht]; exact ih
      · rw [distinct_concat_new h ht, List.nodup_append]
        refine ⟨ih, by simp, ?_⟩
        intro a ha b hb hab
        rw [List.mem_singleton] at hb
        exact ht (hb ▸ hab ▸ ha)

/-! ## One call -/

theorem run_append (i : Interner) (before after : List Op) :
    i.run (before ++ after) = (i.run before).run after := by
  simp [run]

theorem run_concat (i : Interner) (ops : List Op) (op : Op) :
    i.run (ops ++ [op]) = ((i.run ops).perform op).1 := by
  simp [run]

theorem perform_refused (i : Interner) {op : Op} (h : op.type? = none) :
    i.perform op = (i, none, []) := by
  cases op with
  | register t => cases h
  | registerFlat n k types =>
    have hlen : types.length ≠ n + k := FuncType.ofFlat?_eq_none_iff.mp h
    simp [perform, registerFlat, hlen]

/-- A type is numbered alike in both forms. -/
theorem perform_accepted (i : Interner) {op : Op} {t : FuncType} (h : op.type? = some t) :
    i.perform op = ((i.intern t.params.length t.shape).1,
      some (i.intern t.params.length t.shape).2.1, (i.intern t.params.length t.shape).2.2) := by
  have hreg : ∀ u : FuncType, i.register u = ((i.intern u.params.length u.shape).1,
      some (i.intern u.params.length u.shape).2.1, (i.intern u.params.length u.shape).2.2) := by
    intro u
    simp [register, registerFlat, FuncType.flat, FuncType.shape]
  cases op with
  | register u => cases h; exact hreg t
  | registerFlat n k types =>
    obtain ⟨rfl, rfl, rfl⟩ := FuncType.ofFlat?_eq_some_iff.mp h
    exact hreg t

theorem perform_seen {i : Interner} {ts : List FuncType} (hi : Numbers i ts) {op : Op}
    {t : FuncType} (h : op.type? = some t) {k : Nat} (hk : ts[k]? = some t) :
    i.perform op = (i, some ⟨k % 2 ^ 32⟩, []) := by
  have hf : i.ids.find? t.shape = some ⟨k % 2 ^ 32⟩ := (hi.found t _).mpr ⟨k, hk, rfl⟩
  simp [perform_accepted i h, intern, hf]

theorem find?_of_not_mem {i : Interner} {ts : List FuncType} (hi : Numbers i ts) {t : FuncType}
    (ht : t ∉ ts) : i.ids.find? t.shape = none := by
  cases hf : i.ids.find? t.shape with
  | none => rfl
  | some id =>
    obtain ⟨k, hk, _⟩ := (hi.found t id).mp hf
    exact absurd (List.mem_of_getElem? hk) ht

theorem perform_new {i : Interner} {ts : List FuncType} (hi : Numbers i ts) {op : Op}
    {t : FuncType} (h : op.type? = some t) (ht : t ∉ ts) :
    i.perform op = (⟨i.ids.insert t.shape ⟨ts.length % 2 ^ 32⟩⟩, some ⟨ts.length % 2 ^ 32⟩,
      [.signatureInterned ⟨ts.length % 2 ^ 32⟩ t.params.length t.results.length]) := by
  simp [perform_accepted i h, intern, find?_of_not_mem hi ht, next, hi.size]

/-! ## A whole run -/

theorem numbers_insert {i : Interner} {ts : List FuncType} (hi : Numbers i ts) {t : FuncType}
    (ht : t ∉ ts) : Numbers ⟨i.ids.insert t.shape ⟨ts.length % 2 ^ 32⟩⟩ (ts ++ [t]) := by
  refine ⟨?_, ?_⟩
  · have hsize : i.ids.size = ts.length := hi.size
    simp [size, Directory.size_insert _ _ _ (find?_of_not_mem hi ht), hsize]
  · intro u id
    rw [Directory.find?_insert]
    -- the new type is in no place before the last, and no other type moves
    by_cases hu : u = t
    · subst hu
      rw [if_pos rfl]
      constructor
      · intro h
        cases h
        exact ⟨ts.length, by simp, rfl⟩
      · rintro ⟨k, hk, rfl⟩
        have hge : ts.length ≤ k := by
          apply Nat.le_of_not_lt
          intro hlt
          rw [List.getElem?_append_left hlt] at hk
          exact ht (List.mem_of_getElem? hk)
        have hlt := (List.getElem?_eq_some_iff.mp hk).1
        rw [List.length_append, List.length_singleton] at hlt
        have : k = ts.length := by omega
        rw [this]
    · rw [if_neg (fun hs => hu (FuncType.shape_inj.mp hs)), hi.found]
      constructor
      · rintro ⟨k, hk, rfl⟩
        have hlt := (List.getElem?_eq_some_iff.mp hk).1
        exact ⟨k, by rw [List.getElem?_append_left hlt, hk], rfl⟩
      · rintro ⟨k, hk, rfl⟩
        refine ⟨k, ?_, rfl⟩
        by_cases hlt : k < ts.length
        · rwa [List.getElem?_append_left hlt] at hk
        · rw [List.getElem?_append_right (by omega)] at hk
          have := List.mem_of_getElem? hk
          exact absurd (List.mem_singleton.mp this) hu

/-- The invariant of a run: the interner numbers the types seen so far by their order. -/
theorem numbers_run (ops : List Op) : Numbers (empty.run ops) (distinct ops) := by
  induction ops using List.reverseRecOn with
  | nil => exact ⟨rfl, fun t id => by simp [run, empty, distinct]⟩
  | append_singleton ops op ih =>
    rw [run_concat]
    cases h : op.type? with
    | none =>
      rw [perform_refused _ h, distinct_concat_none h]
      exact ih
    | some t =>
      by_cases ht : t ∈ distinct ops
      · obtain ⟨k, hk⟩ := List.mem_iff_getElem?.mp ht
        rw [perform_seen ih h hk, distinct_concat_seen h ht]
        exact ih
      · rw [perform_new ih h ht, distinct_concat_new h ht]
        exact numbers_insert ih ht

/-- Refused calls leave a new interner empty, and no others do. -/
theorem isEmpty_run_iff (ops : List Op) :
    (empty.run ops).isEmpty = true ↔ ∀ op ∈ ops, op.type? = none := by
  rw [isEmpty_iff, (numbers_run ops).size, List.length_eq_zero_iff,
    List.eq_nil_iff_forall_not_mem]
  constructor
  · intro h op hop
    cases htype : op.type? with
    | none => rfl
    | some t => exact absurd (mem_distinct.mpr ⟨op, hop, htype⟩) (h t)
  · intro h t ht
    obtain ⟨op, hop, htype⟩ := mem_distinct.mp ht
    rw [h op hop] at htype
    cases htype

/-! ## The numbers issued -/

theorem getElem?_distinct_append {before : List Op} {k : Nat} {t : FuncType} (after : List Op)
    (h : (distinct before)[k]? = some t) : (distinct (before ++ after))[k]? = some t := by
  obtain ⟨new, hnew⟩ := distinct_append before after
  rw [hnew, List.getElem?_append_left (List.getElem?_eq_some_iff.mp h).1]
  exact h

theorem distinct_place_inj {ops : List Op} {k j : Nat} {t : FuncType}
    (hk : (distinct ops)[k]? = some t) (hj : (distinct ops)[j]? = some t) : k = j := by
  obtain ⟨hk, hkt⟩ := List.getElem?_eq_some_iff.mp hk
  obtain ⟨hj, hjt⟩ := List.getElem?_eq_some_iff.mp hj
  exact (List.getElem_inj (nodup_distinct ops)).mp (hkt.trans hjt.symm)

/-- A call that names a type is answered the place of the type, and the call itself makes sure that
it has one. -/
theorem answer_of_accepted (before : List Op) {op : Op} {t : FuncType} (h : op.type? = some t) :
    ∃ k, (distinct (before ++ [op]))[k]? = some t ∧
      ((empty.run before).perform op).2.1 = some ⟨k % 2 ^ 32⟩ := by
  have hi := numbers_run before
  by_cases ht : t ∈ distinct before
  · obtain ⟨k, hk⟩ := List.mem_iff_getElem?.mp ht
    refine ⟨k, ?_, by rw [perform_seen hi h hk]⟩
    rw [distinct_concat_seen h ht]
    exact hk
  · refine ⟨(distinct before).length, ?_, by rw [perform_new hi h ht]⟩
    simp [distinct_concat_new h ht]

theorem issued_iff {ops : List Op} {t : FuncType} {id : SignatureId} :
    Issued ops t id ↔ ∃ k, (distinct ops)[k]? = some t ∧ id = ⟨k % 2 ^ 32⟩ := by
  constructor
  · rintro ⟨before, op, after, rfl, h, hid⟩
    obtain ⟨k, hk, hans⟩ := answer_of_accepted before h
    rw [hans, Option.some.injEq] at hid
    have hwhole := getElem?_distinct_append after hk
    rw [List.append_assoc, List.singleton_append] at hwhole
    exact ⟨k, hwhole, hid.symm⟩
  · rintro ⟨k, hk, rfl⟩
    obtain ⟨op, hop, h⟩ := mem_distinct.mp (List.mem_of_getElem? hk)
    obtain ⟨before, after, rfl⟩ := List.append_of_mem hop
    obtain ⟨j, hj, hans⟩ := answer_of_accepted before h
    have hwhole := getElem?_distinct_append after hj
    rw [List.append_assoc, List.singleton_append] at hwhole
    cases distinct_place_inj hk hwhole
    exact ⟨before, op, after, rfl, h, hans⟩

section Bounded

variable {ops : List Op} (hops : (distinct ops).length < 2 ^ 32)

include hops

/-- With fewer types than words no place is cut. -/
theorem issued_iff_place {t : FuncType} {id : SignatureId} :
    Issued ops t id ↔ (distinct ops)[id.index]? = some t := by
  rw [issued_iff]
  constructor
  · rintro ⟨k, hk, rfl⟩
    have hlt := (List.getElem?_eq_some_iff.mp hk).1
    have hmod : k % 2 ^ 32 = k := Nat.mod_eq_of_lt (by omega)
    simpa only [hmod] using hk
  · intro h
    have hlt := (List.getElem?_eq_some_iff.mp h).1
    refine ⟨id.index, h, ?_⟩
    rw [Nat.mod_eq_of_lt (by omega)]

theorem issued_inj {t u : FuncType} {a b : SignatureId} (ha : Issued ops t a)
    (hb : Issued ops u b) : a = b ↔ t = u := by
  rw [issued_iff_place hops] at ha hb
  constructor
  · rintro rfl
    exact Option.some.inj (ha.symm.trans hb)
  · rintro rfl
    cases a
    cases b
    exact congrArg SignatureId.mk (distinct_place_inj ha hb)

end Bounded

end Interner
end WasmHost
