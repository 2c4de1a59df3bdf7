import WasmHost.Directory
import WasmHost.Event

/-!
# WasmHost.Interner

Numbers for function types. A type seen before keeps its number, and a new one gets the next, so
the numbers are handed out in the order in which types are first seen.

An interner does not keep a function type as its two lists. It keeps one flat list, parameters
before results, and how many of its types are results.
-/

namespace WasmHost

/-- What an interner keeps of a function type. -/
structure Shape where
  numResults : Nat
  types : List ValType
  deriving DecidableEq

def FuncType.shape (t : FuncType) : Shape := ⟨t.results.length, t.flat⟩

@[simp] theorem FuncType.numResults_shape (t : FuncType) :
    t.shape.numResults = t.results.length := rfl

/-- The count of results tells where the flat list is cut, so nothing of the type is lost. -/
theorem FuncType.shape_inj {t u : FuncType} : t.shape = u.shape ↔ t = u := by
  constructor
  · intro h
    cases t
    cases u
    simp only [shape, flat, Shape.mk.injEq] at h
    obtain ⟨hparams, hresults⟩ := List.append_inj' h.2 h.1
    rw [hparams, hresults]
  · rintro rfl
    rfl

structure Interner where
  ids : Directory Shape SignatureId

namespace Interner

def empty : Interner := ⟨.empty⟩

instance : Inhabited Interner := ⟨empty⟩

/-- How many shapes were seen so far. -/
def size (i : Interner) : Nat := i.ids.size

def isEmpty (i : Interner) : Bool := i.size == 0

theorem isEmpty_iff {i : Interner} : i.isEmpty = true ↔ i.size = 0 := beq_iff_eq

/-- The number for a new shape. A number is a word of 32 bits. -/
def next (i : Interner) : SignatureId := ⟨i.size % 2 ^ 32⟩

/-- A shape seen before keeps its number; a new one gets the next, which is reported. -/
def intern (i : Interner) (numParams : Nat) (shape : Shape) :
    Interner × SignatureId × List Event :=
  match i.ids.find? shape with
  | some id => (i, id, [])
  | none =>
    (⟨i.ids.insert shape i.next⟩, i.next,
      [.signatureInterned i.next numParams shape.numResults])

/-- A list that does not fit its counts is refused and leaves the interner as it was. -/
def registerFlat (i : Interner) (numParams numResults : Nat) (types : List ValType) :
    Interner × Option SignatureId × List Event :=
  if types.length = numParams + numResults then
    let (i, id, events) := i.intern numParams ⟨numResults, types⟩
    (i, some id, events)
  else
    (i, none, [])

def register (i : Interner) (t : FuncType) : Interner × Option SignatureId × List Event :=
  i.registerFlat t.params.length t.results.length t.flat

/-- What an interner is asked to number: a function type, or one written as a flat list with the
counts of its parameters and results. -/
inductive Op where
  | register (t : FuncType)
  | registerFlat (numParams numResults : Nat) (types : List ValType)
  deriving DecidableEq

/-- The function type that is meant, if the counts fit the list. -/
def Op.type? : Op → Option FuncType
  | .register t => some t
  | .registerFlat numParams numResults types => FuncType.ofFlat? numParams numResults types

def perform (i : Interner) : Op → Interner × Option SignatureId × List Event
  | .register t => i.register t
  | .registerFlat numParams numResults types => i.registerFlat numParams numResults types

/-- The interner after a run of operations, refused ones among them. -/
def run (i : Interner) (ops : List Op) : Interner := ops.foldl (fun i op => (i.perform op).1) i

/-- What a run of operations sends, oldest first. -/
def events (i : Interner) : List Op → List Event
  | [] => []
  | op :: ops => (i.perform op).2.2 ++ (i.perform op).1.events ops

end Interner

end WasmHost
