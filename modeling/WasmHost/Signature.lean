import WasmHost.ValType

/-!
# WasmHost.Signature

Function types and the numbers that stand for them at an indirect call.
-/

namespace WasmHost

/-- The number an interner gave to a function type. -/
structure SignatureId where
  index : Nat
  deriving DecidableEq

structure FuncType where
  params : List ValType
  results : List ValType
  deriving DecidableEq

namespace FuncType

/-- Cuts a flat list, parameters before results. A list of any other length than the two counts
together is no function type. -/
def ofFlat? (numParams numResults : Nat) (types : List ValType) : Option FuncType :=
  if types.length = numParams + numResults then
    some ⟨types.take numParams, types.drop numParams⟩
  else
    none

def flat (t : FuncType) : List ValType := t.params ++ t.results

theorem ofFlat?_flat (t : FuncType) :
    ofFlat? t.params.length t.results.length t.flat = some t := by
  simp [ofFlat?, flat]

theorem ofFlat?_eq_some_iff {n k : Nat} {types : List ValType} {t : FuncType} :
    ofFlat? n k types = some t ↔
      types = t.flat ∧ n = t.params.length ∧ k = t.results.length := by
  constructor
  · intro h
    unfold ofFlat? at h
    split at h
    · rename_i hlen
      cases h
      refine ⟨by simp [flat], ?_, ?_⟩ <;> simp <;> omega
    · cases h
  · rintro ⟨rfl, rfl, rfl⟩
    exact ofFlat?_flat t

theorem ofFlat?_eq_none_iff {n k : Nat} {types : List ValType} :
    ofFlat? n k types = none ↔ types.length ≠ n + k := by
  simp [ofFlat?]

end FuncType

end WasmHost
