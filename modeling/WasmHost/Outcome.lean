import WasmHost.Event

/-!
# WasmHost.Outcome

What an operation on shared state leaves behind: the state, a result, and the events it sent. A
failing operation has a state and events too, those of all that it did before it failed.
-/

namespace WasmHost

structure Outcome (σ ε α : Type) where
  state : σ
  result : Except ε α
  events : List Event

namespace Outcome

variable {σ τ ε ε' α β : Type}

/-- Leaves the state alone and sends nothing. -/
def pure (s : σ) (a : α) : Outcome σ ε α := ⟨s, .ok a, []⟩

/-- Fails with the state left alone and nothing sent. -/
def fail (s : σ) (e : ε) : Outcome σ ε α := ⟨s, .error e, []⟩

def ofExcept (s : σ) (r : Except ε α) : Outcome σ ε α := ⟨s, r, []⟩

def map (f : α → β) (o : Outcome σ ε α) : Outcome σ ε β := ⟨o.state, o.result.map f, o.events⟩

def mapError (f : ε → ε') (o : Outcome σ ε α) : Outcome σ ε' α :=
  ⟨o.state, o.result.mapError f, o.events⟩

/-- The same outcome in a larger state. -/
def lift (f : σ → τ) (o : Outcome σ ε α) : Outcome τ ε α := ⟨f o.state, o.result, o.events⟩

/-- Goes on in the state that was left; a failure ends it. -/
def andThen (o : Outcome σ ε α) (k : σ → α → Outcome σ ε β) : Outcome σ ε β :=
  match o.result with
  | .error e => ⟨o.state, .error e, o.events⟩
  | .ok a =>
    let next := k o.state a
    ⟨next.state, next.result, o.events ++ next.events⟩

end Outcome

end WasmHost
