import WasmHost.Store.Lemmas
import WasmHost.Store.View

/-!
# WasmHost.Proofs.Sharing.Effect

Operations on the objects of a store, as data. An effect is an operation together with the object it
is on, and whatever happens to the objects of a store is a list of effects.

* `view_apply_target`, `view_apply_other`: one effect changes the object it is on and no other.
* `view_applyAll`: after many, an object shows what those on it did, in their order.
-/

namespace WasmHost

inductive Effect where
  | memory (a : Addr .memory) (op : Memory.Op)
  | table (a : Addr .table) (op : Table.Op)
  | global (a : Addr .global) (v : Value)

namespace Effect

def target : Effect → Extern
  | .memory a _ => .memory a
  | .table a _ => .table a
  | .global a _ => .global a

/-- The store that the operation leaves, whether it succeeds or not. -/
def apply (s : Store) : Effect → Store
  | .memory a op => (s.onMemory a op).state
  | .table a op => (s.onTable a op).state
  | .global a v =>
    match s.setGlobal a v with
    | .ok s' => s'
    | .error _ => s

/-- What an object shows after the operation on it. -/
def on : Effect → View → View
  | .memory _ op, .memory m => .memory (m.perform op).state
  | .table _ op, .table t => .table (t.perform op).state
  | .global _ v, .global old => .global (if v.typ = old.typ then v else old)
  | _, view => view

def applyAll (s : Store) (es : List Effect) : Store := es.foldl apply s

/-- What an item shows after the effects: those on it count, in their order. -/
def onAll (es : List Effect) (item : Extern) (view : View) : View :=
  (es.filter (fun e => e.target = item)).foldl (fun view e => e.on view) view

/-! ## One effect -/

theorem target_ne_function (e : Effect) (f : Addr .function) : e.target ≠ .function f := by
  cases e with
  | memory a op => simp [target]
  | table a op => simp [target]
  | global a v => simp [target]

theorem kind_target_ne_constant (e : Effect) : e.target.kind ≠ .constant := by
  cases e with
  | memory a op => simp [target, Extern.kind]
  | table a op => simp [target, Extern.kind]
  | global a v => simp [target, Extern.kind]

section

variable (s : Store)

theorem apply_global (a : Addr .global) (v : Value) :
    (Effect.global a v).apply s = { s with
      globals := if v.typ = (s.global a).typ then s.globals.setIfInBounds a.index v
        else s.globals } := by
  unfold apply Store.setGlobal
  by_cases h : v.typ = (s.global a).typ
  · simp only [if_pos h]
  · simp only [if_neg h]

theorem count_apply (e : Effect) (k : ExternKind) : (e.apply s).count k = s.count k := by
  cases e with
  | memory a op =>
    cases k <;> simp [apply, Store.onMemory, Outcome.lift, Store.setMemory, Store.count]
  | table a op =>
    cases k <;> simp [apply, Store.onTable, Outcome.lift, Store.setTable, Store.count]
  | global a v =>
    rw [apply_global]
    by_cases h : v.typ = (s.global a).typ
    · cases k <;> simp [Store.count, h]
    · cases k <;> simp [Store.count, h]

/-- No operation changes a function. -/
theorem functions_apply (e : Effect) : (e.apply s).functions = s.functions := by
  cases e with
  | memory a op => rfl
  | table a op => rfl
  | global a v => rw [apply_global]

theorem tables_apply {e : Effect} (h : e.target.kind ≠ .table) :
    (e.apply s).tables = s.tables := by
  cases e with
  | memory a op => rfl
  | table a op => exact absurd rfl h
  | global a v => rw [apply_global]

theorem view_apply_target {e : Effect} (h : s.Has e.target) :
    (e.apply s).view e.target = e.on (s.view e.target) := by
  cases e with
  | memory a op => exact congrArg View.memory (s.memory_setMemory_same h _)
  | table a op => exact congrArg View.table (s.table_setTable_same h _)
  | global a v =>
    refine congrArg View.global ?_
    by_cases htyp : v.typ = (s.global a).typ
    · obtain ⟨s', hs'⟩ := Store.setGlobal_isOk_iff.mpr htyp
      simp only [apply, hs', if_pos htyp, (Store.setGlobal_same h hs').1]
    · simp only [apply, Store.setGlobal, if_neg htyp]

theorem view_apply_other {e : Effect} {item : Extern} (h : item ≠ e.target) :
    (e.apply s).view item = s.view item := by
  cases e with
  | memory a op =>
    cases item with
    | memory b =>
      have hab : b ≠ a := fun hb => h (congrArg Extern.memory hb)
      exact congrArg View.memory (s.memory_setMemory_other hab _)
    | _ => rfl
  | table a op =>
    cases item with
    | table b =>
      have hab : b ≠ a := fun hb => h (congrArg Extern.table hb)
      exact congrArg View.table (s.table_setTable_other hab _)
    | _ => rfl
  | global a v =>
    cases item with
    | global b =>
      have hab : b ≠ a := fun hb => h (congrArg Extern.global hb)
      refine congrArg View.global ?_
      cases hset : s.setGlobal a v with
      | ok s' =>
        simp only [apply, hset]
        exact Store.setGlobal_other hab hset
      | error err => simp only [apply, hset]
    | _ =>
      rw [apply_global]
      rfl

end

/-! ## Many effects -/

theorem count_applyAll (s : Store) (es : List Effect) (k : ExternKind) :
    (applyAll s es).count k = s.count k := by
  induction es generalizing s with
  | nil => rfl
  | cons e rest ih => exact (ih (e.apply s)).trans (count_apply s e k)

theorem has_applyAll {s : Store} {item : Extern} (h : s.Has item) (es : List Effect) :
    (applyAll s es).Has item :=
  Store.has_of_count_le (fun k => Nat.le_of_eq (count_applyAll s es k).symm) h

theorem applyAll_append (s : Store) (es es' : List Effect) :
    applyAll s (es ++ es') = applyAll (applyAll s es) es' :=
  List.foldl_append

theorem onAll_cons (e : Effect) (es : List Effect) (item : Extern) (view : View) :
    onAll (e :: es) item view = onAll es item (if e.target = item then e.on view else view) := by
  unfold onAll
  by_cases h : e.target = item
  · simp [h]
  · simp [h]

theorem onAll_of_forall_ne {es : List Effect} {item : Extern} (h : ∀ e ∈ es, e.target ≠ item)
    (view : View) : onAll es item view = view := by
  induction es with
  | nil => rfl
  | cons e rest ih =>
    rw [onAll_cons, if_neg (h e List.mem_cons_self)]
    exact ih fun e' he' => h e' (List.mem_cons_of_mem _ he')

theorem view_applyAll {s : Store} {item : Extern} (h : s.Has item) (es : List Effect) :
    (applyAll s es).view item = onAll es item (s.view item) := by
  induction es generalizing s with
  | nil => rfl
  | cons e rest ih =>
    have hstep : (applyAll (e.apply s) rest).view item = onAll rest item ((e.apply s).view item) :=
      ih (has_applyAll h [e])
    rw [onAll_cons]
    refine hstep.trans (congrArg (onAll rest item) ?_)
    by_cases he : e.target = item
    · cases he
      rw [if_pos rfl, view_apply_target s h]
    · rw [if_neg he, view_apply_other s (Ne.symm he)]

theorem functions_applyAll (s : Store) (es : List Effect) :
    (applyAll s es).functions = s.functions := by
  induction es generalizing s with
  | nil => rfl
  | cons e rest ih => exact (ih (e.apply s)).trans (functions_apply s e)

theorem tables_applyAll (s : Store) {es : List Effect} (h : ∀ e ∈ es, e.target.kind ≠ .table) :
    (applyAll s es).tables = s.tables := by
  induction es generalizing s with
  | nil => rfl
  | cons e rest ih =>
    have hrest := ih (e.apply s) fun e' he' => h e' (List.mem_cons_of_mem _ he')
    exact hrest.trans (tables_apply s (h e List.mem_cons_self))

end Effect

end WasmHost
