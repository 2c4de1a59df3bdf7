import WasmHost.Call
import WasmHost.Proofs.Sharing.Effect

/-!
# WasmHost.Proofs.Sharing.Call

What a call does to the objects of a store: a list of effects, each on an object that the function
operates on by its own body or through the functions it calls.

* `effectsWithin`: the list, read off the bodies of the functions as the call runs them.
* `callAll_leads`: calls one after the other, by induction on their list.
* `callWithin_leads`: a nest of calls, by induction on its depth.
-/

namespace WasmHost

/-- The handle through which a body changes an object when it runs, if it does. -/
def Body.target? {ρ : ExternKind → Type} {σ : Type} : Body ρ σ → Option (Σ k, ρ k)
  | .store memory _ => some ⟨.memory, memory⟩
  | .memoryGrow memory => some ⟨.memory, memory⟩
  | .bump global => some ⟨.global, global⟩
  | _ => none

theorem Body.kind_ne_table {ρ : ExternKind → Type} {σ : Type} {body : Body ρ σ} {x : Σ k, ρ k}
    (h : body.target? = some x) : x.1 ≠ .table := by
  cases body with
  | store memory k =>
    cases h
    simp
  | memoryGrow memory =>
    cases h
    simp
  | bump global =>
    cases h
    simp
  | _ => cases h

namespace Store

/-- What a function changes when it is called: the object that its own body changes, and those that
the functions change which it calls. -/
inductive OperatesOn (s : Store) : Addr .function → Extern → Prop
  | body {f : Addr .function} {k : ExternKind} {a : Addr k} {item : Extern} :
      (s.function f).body.target? = some ⟨k, a⟩ → Extern.shared? k a = some item →
        OperatesOn s f item
  | callIndirect {f g : Addr .function} {a : Addr .table} {id : SignatureId} {i : BitVec 32}
      {item : Extern} :
      (s.function f).body = .callIndirect a id → (s.table a).callee id i = .ok g →
        OperatesOn s g item → OperatesOn s f item
  | seq {f g : Addr .function} {fs : List (Addr .function)} {item : Extern} :
      (s.function f).body = .seq fs → g ∈ fs → OperatesOn s g item → OperatesOn s f item

theorem OperatesOn.kind_ne_table {s : Store} {f : Addr .function} {item : Extern}
    (h : s.OperatesOn f item) : item.kind ≠ .table := by
  induction h with
  | body htarget hitem =>
    rw [Extern.kind_of_shared? hitem]
    exact Body.kind_ne_table htarget
  | callIndirect _ _ _ ih => exact ih
  | seq _ _ _ ih => exact ih

/-- A function whose own body changes an object calls no others. -/
theorem operatesOn_iff_of_target {s : Store} {f : Addr .function} {k : ExternKind} {a : Addr k}
    {item x : Extern} (htarget : (s.function f).body.target? = some ⟨k, a⟩)
    (hitem : Extern.shared? k a = some item) : s.OperatesOn f x ↔ x = item := by
  constructor
  · intro h
    cases h with
    | body htarget' hx =>
      rw [htarget] at htarget'
      cases htarget'
      rw [hitem] at hx
      cases hx
      rfl
    | callIndirect hbody _ _ =>
      rw [hbody] at htarget
      cases htarget
    | seq hbody _ _ =>
      rw [hbody] at htarget
      cases htarget
  · rintro rfl
    exact .body htarget hitem

/-- What a function operates on is decided by the functions and tables of the store. -/
theorem OperatesOn.congr {s s' : Store} (hfunctions : s'.functions = s.functions)
    (htables : s'.tables = s.tables) {f : Addr .function} {item : Extern}
    (h : s'.OperatesOn f item) : s.OperatesOn f item := by
  have hfunction : ∀ g, s'.function g = s.function g := by
    intro g
    simp only [function, hfunctions]
  have htable : ∀ a, s'.table a = s.table a := by
    intro a
    simp only [table, htables]
  induction h with
  | body htarget hitem =>
    rw [hfunction] at htarget
    exact .body htarget hitem
  | callIndirect hbody hcallee _ ih =>
    rw [hfunction] at hbody
    rw [htable] at hcallee
    exact .callIndirect hbody hcallee ih
  | seq hbody hg _ ih =>
    rw [hfunction] at hbody
    exact .seq hbody hg ih

/-- The store is left by effects on objects that satisfy a condition. -/
def LeftBy (s : Store) (allowed : Extern → Prop) (s' : Store) : Prop :=
  ∃ es, (∀ e ∈ es, allowed e.target) ∧ s' = Effect.applyAll s es

/-- These effects leave the store, and they are all on objects that satisfy a condition. -/
structure Leads (s : Store) (es : List Effect) (allowed : Extern → Prop) (s' : Store) : Prop where
  allowed : ∀ e ∈ es, allowed e.target
  state : s' = Effect.applyAll s es

section

variable {s s' s'' : Store} {es es' : List Effect} {allowed allowed' : Extern → Prop}

theorem Leads.nil (s : Store) : s.Leads [] allowed s := ⟨by simp, rfl⟩

theorem Leads.one {e : Effect} (h : allowed e.target) : s.Leads [e] allowed (e.apply s) :=
  ⟨by simpa using h, rfl⟩

theorem Leads.mono (h : s.Leads es allowed s') (himp : ∀ item, allowed item → allowed' item) :
    s.Leads es allowed' s' :=
  ⟨fun e he => himp _ (h.allowed e he), h.state⟩

theorem Leads.append (h : s.Leads es allowed s') (h' : s'.Leads es' allowed s'') :
    s.Leads (es ++ es') allowed s'' := by
  constructor
  · intro e he
    rcases List.mem_append.mp he with he | he
    · exact h.allowed e he
    · exact h'.allowed e he
  · rw [Effect.applyAll_append, ← h.state]
    exact h'.state

end

/-! ## The effects of a call -/

/-- The effects of calls one after the other. A trap ends them, but what was done before it
stays. -/
def effectsAll (call : Store → Addr .function → Outcome Store Trap (List Value))
    (effects : Store → Addr .function → List Effect) (s : Store) :
    List (Addr .function) → List Effect
  | [] => []
  | f :: rest =>
    match (call s f).result with
    | .ok _ => effects s f ++ effectsAll call effects (call s f).state rest
    | .error _ => effects s f

def effectsWithin : Nat → Store → Addr .function → Args → List Effect
  | 0, _, _, _ => []
  | depth + 1, s, f, args =>
    match (s.function f).body with
    | .store memory k => [.memory memory (.storeTo k (args.int .i32 0) (args.value k.typ 1))]
    | .memoryGrow memory => [.memory memory (.grow (args.int .i32 0))]
    | .bump global => [.global global (.i32 (((s.global global).toInt? .i32).getD 0 + 1))]
    | .callIndirect table signature =>
      match (s.table table).callee signature (args.int .i32 0) with
      | .ok g => effectsWithin depth s g (args.drop 1)
      | .error _ => []
    | .seq functions =>
      effectsAll (fun s g => callWithin depth s g args) (fun s g => effectsWithin depth s g args) s
        functions
    | _ => []

/-- The effects of a whole call. -/
def effectsOf (s : Store) (f : Addr .function) (args : Args) : List Effect :=
  effectsWithin (s.depthLimit args) s f args

/-- Each call of the list may start in another store, but none of them changes what the functions
after it operate on. -/
theorem callAll_leads {call : Store → Addr .function → Outcome Store Trap (List Value)}
    {effects : Store → Addr .function → List Effect}
    (hcall : ∀ (s : Store) f, s.Leads (effects s f) (s.OperatesOn f) (call s f).state) (s : Store)
    (fs : List (Addr .function)) :
    s.Leads (effectsAll call effects s fs) (fun item => ∃ f ∈ fs, s.OperatesOn f item)
      (callAll call s fs).state := by
  induction fs generalizing s with
  | nil => exact Leads.nil s
  | cons f rest ih =>
    have hfirst : s.Leads (effects s f) (fun item => ∃ g ∈ f :: rest, s.OperatesOn g item)
        (call s f).state :=
      (hcall s f).mono fun item hitem => ⟨f, List.mem_cons_self, hitem⟩
    unfold callAll effectsAll Outcome.andThen
    cases hresult : (call s f).result with
    | error t => exact hfirst
    | ok vs =>
      refine hfirst.append ((ih (call s f).state).mono ?_)
      rintro item ⟨g, hg, hitem⟩
      refine ⟨g, List.mem_cons_of_mem _ hg, ?_⟩
      have heffects := (hcall s f).allowed
      rw [(hcall s f).state] at hitem
      exact hitem.congr (Effect.functions_applyAll s _)
        (Effect.tables_applyAll s fun e he => (heffects e he).kind_ne_table)

theorem callWithin_leads (depth : Nat) (s : Store) (f : Addr .function) (args : Args) :
    s.Leads (effectsWithin depth s f args) (s.OperatesOn f) (callWithin depth s f args).state := by
  induction depth generalizing s f args with
  | zero => exact Leads.nil s
  | succ depth ih =>
    unfold callWithin effectsWithin
    cases hbody : (s.function f).body with
    | const values => exact Leads.nil s
    | trap t => exact Leads.nil s
    | echo => exact Leads.nil s
    | numeric op => exact Leads.nil s
    | load a k => exact Leads.nil s
    | store a k => exact Leads.one (.body (by rw [hbody]; rfl) rfl)
    | memoryGrow a => exact Leads.one (.body (by rw [hbody]; rfl) rfl)
    | bump a => exact Leads.one (.body (by rw [hbody]; rfl) rfl)
    | callIndirect a id =>
      cases hcallee : (s.table a).callee id (args.int .i32 0) with
      | error t =>
        simp only [hcallee]
        exact Leads.nil s
      | ok g =>
        simp only [hcallee]
        exact (ih s g (args.drop 1)).mono fun item hitem => .callIndirect hbody hcallee hitem
    | seq fs =>
      refine (callAll_leads (fun s g => ih s g args) s fs).mono ?_
      rintro item ⟨g, hg, hitem⟩
      exact .seq hbody hg hitem
    | print field => exact Leads.nil s

theorem call_leads (s : Store) (f : Addr .function) (args : Args) :
    s.Leads (s.effectsOf f args) (s.OperatesOn f) (s.call f args).state :=
  callWithin_leads (s.depthLimit args) s f args

theorem call_leftBy (s : Store) (f : Addr .function) (args : Args) :
    s.LeftBy (s.OperatesOn f) (s.call f args).state :=
  ⟨_, (s.call_leads f args).allowed, (s.call_leads f args).state⟩

end Store
end WasmHost
