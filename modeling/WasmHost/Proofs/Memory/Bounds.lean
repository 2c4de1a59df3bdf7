import WasmHost.Proofs.Memory.Run

/-!
# WasmHost.Proofs.Memory.Bounds

The bounds of a memory, as a law over the natural numbers. Every operation that accesses one range
passes or fails as the bounds check does, so the law is proved once for the check.

* `result_of_access`: the check decides alone.
* `span_of_wellFormed`: the check in a memory that exists.
* `every_access_obeys_one_bound`: when each operation succeeds, the trap if it does not, that only
  the sum of position and offset counts, and that a failure changes nothing.
-/

namespace WasmHost
namespace Memory

/-- Position, offset and number of bytes of an operation that accesses one range. -/
def Op.access? : Op → Option (BitVec 32 × BitVec 32 × Nat)
  | .load k p o => some (p, o, k.bytesRead)
  | .store k p o _ => some (p, o, k.bytesWritten)
  | .read p len => some (p, 0, len)
  | .write p b => some (p, 0, b.size)
  | .put p b => some (p, 0, b.size)
  | .fill dst _ len => some (dst, 0, len.toNat)
  | .copy .. | .grow _ => none

/-- What the bounds decide about an access of `w` bytes, by sums of natural numbers. -/
structure LawfulAccess (m : Memory) (op : Op) (p o : BitVec 32) (w : Nat) : Prop where
  succeeds : Succeeds m op ↔
    p.toNat + o.toNat ≤ 2 ^ 32 - 1 ∧ p.toNat + o.toNat + w ≤ m.byteLen
  overflows : 2 ^ 32 - 1 < p.toNat + o.toNat →
    (m.perform op).result = .error (.range (.addressOverflow p.toNat o.toNat))
  outside : p.toNat + o.toNat ≤ 2 ^ 32 - 1 → m.byteLen < p.toNat + o.toNat + w →
    (m.perform op).result = .error (.range (.outOfBounds (p.toNat + o.toNat) w m.byteLen))

/-- The same of a copy, which accesses two ranges and looks at the source first. -/
structure LawfulCopy (m : Memory) (dst src len : BitVec 32) : Prop where
  succeeds : Succeeds m (.copy dst src len) ↔
    src.toNat + len.toNat ≤ m.byteLen ∧ dst.toNat + len.toNat ≤ m.byteLen
  source : m.byteLen < src.toNat + len.toNat → (m.perform (.copy dst src len)).result =
    .error (.range (.outOfBounds src.toNat len.toNat m.byteLen))
  destination : src.toNat + len.toNat ≤ m.byteLen → m.byteLen < dst.toNat + len.toNat →
    (m.perform (.copy dst src len)).result =
      .error (.range (.outOfBounds dst.toNat len.toNat m.byteLen))

/-- The bounds check decides alone whether such an operation succeeds, and how it fails. -/
theorem result_of_access (m : Memory) {op : Op} {p o : BitVec 32} {w : Nat}
    (h : op.access? = some (p, o, w)) :
    ∃ answer, (m.perform op).result = (m.span p o w).map answer := by
  cases op with
  | load k p o =>
    cases h
    rw [← k.width_eq_bytesRead]
    refine ⟨fun a => .value (k.value (LittleEndian.decode (m.slice a k.width).data.toList)), ?_⟩
    simp only [perform, load, read]
    cases m.span p o k.width <;> rfl
  | store k p o v =>
    cases h
    rw [← k.width_eq_bytesWritten]
    refine ⟨fun _ => .done, ?_⟩
    simp only [perform, store, write, size_encoded]
    cases m.span p o k.width <;> rfl
  | read p len =>
    cases h
    refine ⟨fun a => .bytes (m.slice a w), ?_⟩
    simp only [perform, read]
    cases m.span p 0 w <;> rfl
  | write p b =>
    cases h
    refine ⟨fun _ => .done, ?_⟩
    simp only [perform, write]
    cases m.span p 0 b.size <;> rfl
  | put p b =>
    cases h
    refine ⟨fun _ => .done, ?_⟩
    simp only [perform, put]
    cases m.span p 0 b.size <;> rfl
  | fill dst value len =>
    cases h
    refine ⟨fun _ => .done, ?_⟩
    simp only [perform, fill]
    cases m.span p 0 len.toNat <;> rfl
  | copy dst src len => cases h
  | grow delta => cases h

section Bounds

variable {m : Memory} (hm : WellFormed m)

include hm

theorem span_of_wellFormed (p o : BitVec 32) (w : Nat) :
    m.span p o w =
      if 2 ^ 32 - 1 < p.toNat + o.toNat then
        .error (.range (.addressOverflow p.toNat o.toNat))
      else if p.toNat + o.toNat + w ≤ m.byteLen then
        .ok (p.toNat + o.toNat)
      else
        .error (.range (.outOfBounds (p.toNat + o.toNat) w m.byteLen)) :=
  span_eq (Nat.lt_of_le_of_lt hm.byteLen_le (by decide)) p o w

/-- Without an offset the address is the position, which never overflows. -/
theorem span_zero (p : BitVec 32) (w : Nat) :
    m.span p 0 w =
      if p.toNat + w ≤ m.byteLen then
        .ok p.toNat
      else
        .error (.range (.outOfBounds p.toNat w m.byteLen)) := by
  have hp := p.isLt
  have hzero : p.toNat + (0 : BitVec 32).toNat = p.toNat := rfl
  rw [span_of_wellFormed hm, hzero, if_neg (by omega)]

/-- Two splits of one address pass the check alike. -/
theorem span_congr {p o p' o' : BitVec 32} (hsum : p.toNat + o.toNat = p'.toNat + o'.toNat)
    (hfits : p.toNat + o.toNat ≤ 2 ^ 32 - 1) (w : Nat) : m.span p o w = m.span p' o' w := by
  have hfits' : ¬ 2 ^ 32 - 1 < p'.toNat + o'.toNat := by omega
  rw [span_of_wellFormed hm, span_of_wellFormed hm, hsum, if_neg hfits', if_neg hfits']

theorem lawful_of_access {op : Op} {p o : BitVec 32} {w : Nat}
    (h : op.access? = some (p, o, w)) : LawfulAccess m op p o w := by
  obtain ⟨answer, hresult⟩ := result_of_access m h
  rw [span_of_wellFormed hm] at hresult
  have overflows : 2 ^ 32 - 1 < p.toNat + o.toNat →
      (m.perform op).result = .error (.range (.addressOverflow p.toNat o.toNat)) := by
    intro hov
    rw [hresult, if_pos hov]
    rfl
  have outside : p.toNat + o.toNat ≤ 2 ^ 32 - 1 → m.byteLen < p.toNat + o.toNat + w →
      (m.perform op).result =
        .error (.range (.outOfBounds (p.toNat + o.toNat) w m.byteLen)) := by
    intro hfits hout
    rw [hresult, if_neg (by omega), if_neg (by omega)]
    rfl
  refine ⟨⟨?_, ?_⟩, overflows, outside⟩
  · rintro ⟨_, hok⟩
    by_cases hov : 2 ^ 32 - 1 < p.toNat + o.toNat
    · rw [overflows hov] at hok
      cases hok
    · by_cases hout : m.byteLen < p.toNat + o.toNat + w
      · rw [outside (by omega) hout] at hok
        cases hok
      · exact ⟨by omega, by omega⟩
  · rintro ⟨hfits, hin⟩
    refine ⟨answer (p.toNat + o.toNat), ?_⟩
    rw [hresult, if_neg (by omega), if_pos hin]
    rfl

theorem copy_eq (dst src len : BitVec 32) :
    m.copy dst src len =
      if src.toNat + len.toNat ≤ m.byteLen then
        if dst.toNat + len.toNat ≤ m.byteLen then
          .ok (m.splice dst.toNat (m.slice src.toNat len.toNat))
        else
          .error (.range (.outOfBounds dst.toNat len.toNat m.byteLen))
      else
        .error (.range (.outOfBounds src.toNat len.toNat m.byteLen)) := by
  simp only [copy, span_zero hm]
  by_cases hsrc : src.toNat + len.toNat ≤ m.byteLen
  · rw [if_pos hsrc, if_pos hsrc]
    by_cases hdst : dst.toNat + len.toNat ≤ m.byteLen
    · rw [if_pos hdst, if_pos hdst]
    · rw [if_neg hdst, if_neg hdst]
  · rw [if_neg hsrc, if_neg hsrc]

theorem lawful_copy (dst src len : BitVec 32) : LawfulCopy m dst src len := by
  have hcopy := copy_eq hm dst src len
  by_cases hsrc : src.toNat + len.toNat ≤ m.byteLen
  · rw [if_pos hsrc] at hcopy
    by_cases hdst : dst.toNat + len.toNat ≤ m.byteLen
    · rw [if_pos hdst] at hcopy
      refine ⟨⟨fun _ => ⟨hsrc, hdst⟩, fun _ => ⟨.done, ?_⟩⟩, ?_, ?_⟩
      · simp only [perform, hcopy, written]
      · intro hout
        omega
      · intro _ hout
        omega
    · rw [if_neg hdst] at hcopy
      have htrap : (m.perform (.copy dst src len)).result =
          .error (.range (.outOfBounds dst.toNat len.toNat m.byteLen)) := by
        simp only [perform, hcopy, written]
      refine ⟨⟨?_, fun hin => absurd hin.2 hdst⟩, ?_, fun _ _ => htrap⟩
      · rintro ⟨answer, hok⟩
        rw [htrap] at hok
        cases hok
      · intro hout
        omega
  · rw [if_neg hsrc] at hcopy
    have htrap : (m.perform (.copy dst src len)).result =
        .error (.range (.outOfBounds src.toNat len.toNat m.byteLen)) := by
      simp only [perform, hcopy, written]
    refine ⟨⟨?_, fun hin => absurd hin.1 hsrc⟩, fun _ => htrap, fun hin => absurd hin hsrc⟩
    rintro ⟨answer, hok⟩
    rw [htrap] at hok
    cases hok

theorem load_congr {p o p' o' : BitVec 32} (hsum : p.toNat + o.toNat = p'.toNat + o'.toNat)
    (hfits : p.toNat + o.toNat ≤ 2 ^ 32 - 1) (k : LoadKind) :
    m.perform (.load k p o) = m.perform (.load k p' o') := by
  simp only [perform, load, read, span_congr hm hsum hfits]

theorem store_congr {p o p' o' : BitVec 32} (hsum : p.toNat + o.toNat = p'.toNat + o'.toNat)
    (hfits : p.toNat + o.toNat ≤ 2 ^ 32 - 1) (k : StoreKind) (v : Value) :
    m.perform (.store k p o v) = m.perform (.store k p' o' v) := by
  simp only [perform, store, write, span_congr hm hsum hfits]

end Bounds

/-- A growth that is refused leaves the whole memory as it was. -/
theorem state_of_refused {m : Memory} {delta : BitVec 32}
    (h : (m.perform (.grow delta)).result = .ok (.grown (-1))) :
    (m.perform (.grow delta)).state = m := by
  rcases grow_cases m delta with ⟨hstate, _⟩ | ⟨_, _, hresult, _⟩
  · exact hstate
  · have hneg : (m.size : Int) = -1 := by
      rw [← hresult]
      injection h with h
      injection h
    omega

/-- The bounds of all operations on a memory, and that what fails leaves it alone. A load or store
without an offset is an access at its position, and how an address is split into position and offset
does not matter. -/
structure OneBound (m : Memory) : Prop where
  access : ∀ op p o w, op.access? = some (p, o, w) → LawfulAccess m op p o w
  loadFrom : ∀ k p, LawfulAccess m (.loadFrom k p) p 0 k.bytesRead
  storeTo : ∀ k p v, LawfulAccess m (.storeTo k p v) p 0 k.bytesWritten
  split : ∀ p o p' o' : BitVec 32, p.toNat + o.toNat = p'.toNat + o'.toNat →
    p.toNat + o.toNat ≤ 2 ^ 32 - 1 →
      (∀ k, m.perform (.load k p o) = m.perform (.load k p' o')) ∧
        ∀ k v, m.perform (.store k p o v) = m.perform (.store k p' o' v)
  copy : ∀ dst src len, LawfulCopy m dst src len
  trap : ∀ op t, (m.perform op).result = .error t → (m.perform op).state = m
  refused : ∀ delta, (m.perform (.grow delta)).result = .ok (.grown (-1)) →
    (m.perform (.grow delta)).state = m

/-- One bound for all accesses, in every memory that exists: an access succeeds exactly when its
first address has 32 bits and its bytes are in the memory, with no wrapping anywhere. -/
theorem every_access_obeys_one_bound {m : Memory} (hm : Reachable m) : OneBound m where
  access _ _ _ _ h := lawful_of_access (wellFormed_of_reachable hm) h
  loadFrom _ _ := lawful_of_access (wellFormed_of_reachable hm) rfl
  storeTo _ _ _ := lawful_of_access (wellFormed_of_reachable hm) rfl
  split _ _ _ _ hsum hfits := by
    have hwf := wellFormed_of_reachable hm
    exact ⟨load_congr hwf hsum hfits, store_congr hwf hsum hfits⟩
  copy := lawful_copy (wellFormed_of_reachable hm)
  trap _ _ h := state_of_trap h
  refused _ h := state_of_refused h

/-- In a memory of one page: a load of the last four bytes, a load over the end, and a store to an
address of 33 bits. -/
theorem bound_of_page :
    Reachable (zeroed 1 1) ∧
      Succeeds (zeroed 1 1) (.load (.full .i32) 65000 532) ∧
      ((zeroed 1 1).perform (.load (.full .i32) 65000 533)).result =
        .error (.range (.outOfBounds 65533 4 65536)) ∧
      ((zeroed 1 1).perform (.store .store32 4294967295 1 (.i64 0))).result =
        .error (.range (.addressOverflow 4294967295 1)) := by
  have hpage : Reachable (zeroed 1 1) :=
    .allocate (show allocate 1 1 = .ok (zeroed 1 1) from rfl)
  have hbound := every_access_obeys_one_bound hpage
  have hlen : (zeroed 1 1).byteLen = 65536 := byteLen_zeroed 1 1
  have hin := hbound.access (.load (.full .i32) 65000 532) _ _ _ rfl
  have hover := hbound.access (.load (.full .i32) 65000 533) _ _ _ rfl
  have hwide := hbound.access (.store .store32 4294967295 1 (.i64 0)) _ _ _ rfl
  refine ⟨hpage, hin.succeeds.mpr ⟨by decide, ?_⟩, ?_, hwide.overflows (by decide)⟩
  · rw [hlen]
    decide
  · rw [hover.outside (by decide) (by rw [hlen]; decide), hlen]
    rfl

end Memory
end WasmHost
