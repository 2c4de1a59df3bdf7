/-!
# WasmHost.Directory

Finite maps as lists of entries, at most one for each key. Seen from outside, a directory is its
look-up function; `find?_insert` says all that insertion does to it.
-/

namespace WasmHost

structure Directory (κ α : Type) where
  entries : List (κ × α)
  nodup : (entries.map Prod.fst).Nodup

namespace Directory

variable {κ α : Type} [DecidableEq κ]

def empty : Directory κ α := ⟨[], List.nodup_nil⟩

instance : Inhabited (Directory κ α) := ⟨empty⟩

def find? (d : Directory κ α) (k : κ) : Option α := d.entries.lookup k

def size (d : Directory κ α) : Nat := d.entries.length

def contains (d : Directory κ α) (k : κ) : Bool := (d.find? k).isSome

theorem nodup_insert (d : Directory κ α) (k : κ) (a : α) :
    (((k, a) :: d.entries.filter (fun p => p.1 ≠ k)).map Prod.fst).Nodup := by
  rw [List.map_cons, List.nodup_cons]
  constructor
  · intro h
    obtain ⟨p, hp, hk⟩ := List.mem_map.mp h
    have := (List.mem_filter.mp hp).2
    simp [hk] at this
  · exact (List.filter_sublist.map Prod.fst).nodup d.nodup

/-- Puts an entry in, in place of an earlier one under the same key. -/
def insert (d : Directory κ α) (k : κ) (a : α) : Directory κ α :=
  ⟨(k, a) :: d.entries.filter (fun p => p.1 ≠ k), d.nodup_insert k a⟩

theorem lookup_filter_ne (l : List (κ × α)) {k j : κ} (h : j ≠ k) :
    (l.filter (fun p => p.1 ≠ k)).lookup j = l.lookup j := by
  induction l with
  | nil => rfl
  | cons p r ih =>
    obtain ⟨i, a⟩ := p
    by_cases hi : i = k
    · subst hi
      have hj : (j == i) = false := by simp [h]
      simpa [List.lookup_cons, hj] using ih
    · by_cases hj : j = i
      · simp [hi, hj]
      · have hb : (j == i) = false := by simp [hj]
        simpa [hi, List.lookup_cons, hb] using ih

@[simp] theorem find?_empty (k : κ) : (empty : Directory κ α).find? k = none := rfl

theorem find?_insert (d : Directory κ α) (k j : κ) (a : α) :
    (d.insert k a).find? j = if j = k then some a else d.find? j := by
  by_cases h : j = k
  · simp [find?, insert, h]
  · have hb : (j == k) = false := by simp [h]
    rw [if_neg h]
    unfold find? insert
    rw [List.lookup_cons, hb]
    exact lookup_filter_ne d.entries h

omit [DecidableEq κ] in
@[simp] theorem size_empty : (empty : Directory κ α).size = 0 := rfl

/-- An entry under a new key replaces none. -/
theorem size_insert (d : Directory κ α) (k : κ) (a : α) (h : d.find? k = none) :
    (d.insert k a).size = d.size + 1 := by
  have hk : ∀ p ∈ d.entries, p.1 ≠ k := by
    intro p hp hpk
    have hs := (List.lookup_eq_none_iff.mp h) p hp
    simp [hpk] at hs
  have hf : d.entries.filter (fun p => p.1 ≠ k) = d.entries := by
    rw [List.filter_eq_self]
    intro p hp
    simpa using hk p hp
  simp only [insert, size, List.length_cons, hf]

theorem mem_entries_iff (d : Directory κ α) (k : κ) (a : α) :
    (k, a) ∈ d.entries ↔ d.find? k = some a := by
  unfold find?
  have hd := d.nodup
  generalize d.entries = l at hd
  induction l with
  | nil => simp
  | cons p r ih =>
    obtain ⟨i, b⟩ := p
    rw [List.map_cons, List.nodup_cons] at hd
    by_cases h : k = i
    · subst h
      have hk : (k, a) ∉ r := fun hm => hd.1 (List.mem_map.mpr ⟨(k, a), hm, rfl⟩)
      simp [hk, eq_comm]
    · have hb : (k == i) = false := by simp [h]
      simpa [h, List.lookup_cons, hb] using ih hd.2

end Directory

end WasmHost
