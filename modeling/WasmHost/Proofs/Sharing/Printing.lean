import WasmHost.Proofs.Sharing.Registration
import WasmHost.Proofs.Text.Printed
import WasmHost.Table.Lemmas

/-!
# WasmHost.Proofs.Sharing.Printing

Calls of the print functions in a running session. What a function prints is decided when the test
module is registered, so it does not matter how the function is found later: through a name, through
the key it was registered under, through an alias of that or through a slot of a table.

* `exists_print_of_registration`: a registration leaves a print function under each key for one.
* `prints_of_function`: what a call of it does, by any route.
* `handedOn`: how it gets from one place to another.
* `printed_output_loses_nothing`: and what the line it prints tells.
-/

namespace WasmHost

theorem Table.callee_of_set {t t' : Table} {index : BitVec 32} {e : Element}
    (h : t.set index (some e) = .ok t') : t'.callee e.signature index = .ok e.function := by
  obtain ⟨hindex, rfl⟩ := set_eq_ok_iff.mp h
  rw [callee_eq_ok_iff, Array.getElem?_setIfInBounds_self_of_lt hindex]

namespace Script

open Session

/-- The ways to call a function in a script: by a name of its own, or as what a table holds. -/
inductive Route where
  | name (n : String)
  | slot (table : String) (signature : SignatureRef) (index : BitVec 32)

def Route.calling : Route → Args → Command
  | .name n, args => .function n (.call args)
  | .slot table signature index, args => .table table (.call signature index args)

/-- The function that a route leads to. -/
def Session.routed? (s : Session) : Route → Option (Addr .function)
  | .name n => s.names.find? .function n
  | .slot table signature index => s.callee? table signature index

/-- The act that makes a module an alias of another. -/
def aliasing (r target source : String) : Act := .command (.registry r (.overlay target source))

/-- The act that puts a function into a slot of a table. -/
def placing (table : String) (index : BitVec 32) (e : ElementRef) : Act :=
  .command (.table table (.set index e))

/-- Calls of the function print under the field. They return nothing, leave the session as it is and
send one event. -/
structure Prints (s : Session) (f : Addr .function) (field : String) : Prop where
  call : ∀ args, s.store.call f args = ⟨s.store, .ok [], [.printed field args]⟩
  step : ∀ route args, s.routed? route = some f →
    s.step (route.calling args) = ⟨s, .ok (.values []), [.printed field args]⟩

/-- Ways in which a function gets to other places. -/
structure HandedOn (run : List Act) (f : Addr .function) : Prop where
  imported : ∀ r key name, (reached run).itemAt (.key r key) = some (.function f) →
    (reached (run ++ [importing r key .function name])).routed? (.name name) = some f
  aliased : ∀ r target source field,
    (reached run).itemAt (.key r ⟨source, field⟩) = some (.function f) →
      (reached (run ++ [aliasing r target source])).itemAt (.key r ⟨target, field⟩) =
        some (.function f)
  placed : ∀ table x signature id name, ∀ index : BitVec 32,
    (reached run).names.find? .table table = some x →
      (reached run).names.lookupSignature signature = .ok id →
        (reached run).routed? (.name name) = some f →
          index.toNat < ((reached run).store.table x).size →
            (reached (run ++ [placing table index ⟨signature, name⟩])).routed?
              (.slot table signature index) = some f

/-- The event of a call, and that the call can be read from its message. -/
structure Shown (p : FloatPrinter) (field : String) (args : Args) : Prop where
  level : (Event.printed field args).level = .info
  channel : (Event.printed field args).channel? = some "spectest"
  message : (Event.printed field args).messageWith p =
    field ++ "(" ++ " ".intercalate (args.map (Value.textWith p)) ++ ")"
  fields : (Event.printed field args).fields = []
  reads : Event.Reads p ((Event.printed field args).messageWith p) field args

section

variable {s : Session} {f : Addr .function}

/-! ## Calls -/

theorem step_calling {route : Route} (h : s.routed? route = some f) (args : Args) :
    s.step (route.calling args) =
      s.ofStore (s.store.call f args) fun _ values => .values values := by
  cases route with
  | name n =>
    have hfind : s.names.find? .function n = some f := h
    simp only [Route.calling, step, functionStep, lookup_of_find? hfind, withFound]
  | slot table signature index =>
    obtain ⟨x, id, hx, hid, hcallee⟩ := eq_some_of_callee? h
    simp only [Route.calling, step, tableStep, lookup_of_find? hx, hid, withFound,
      Store.callIndirect, hcallee]

theorem prints_of_function {name field : String} (h : s.store.function f = ⟨name, .print field⟩) :
    Prints s f field where
  call := Spectest.call_of_print h
  step := by
    intro route args hroute
    rw [step_calling hroute, Spectest.call_of_print h]
    rfl

/-! ## Places -/

theorem callee?_eq_some {table : String} {x : Addr .table} {signature : SignatureRef}
    {id : SignatureId} {index : BitVec 32} (hx : s.names.find? .table table = some x)
    (hid : s.names.lookupSignature signature = .ok id)
    (hcallee : (s.store.table x).callee id index = .ok f) :
    s.callee? table signature index = some f := by
  simp only [callee?, hx, hid, hcallee]
  rfl

theorem routed?_name_iff {n : String} :
    s.routed? (.name n) = some f ↔ s.itemAt (.name .function n) = some (.function f) := by
  constructor
  · intro h
    exact Option.bind_eq_some_iff.mpr ⟨f, h, rfl⟩
  · intro h
    obtain ⟨g, hg, hitem⟩ := Option.bind_eq_some_iff.mp h
    cases hitem
    exact hg

variable {run : List Act}

theorem routed?_importing {r : String} {key : ExportKey}
    (h : (reached run).itemAt (.key r key) = some (.function f)) (name : String) :
    (reached (run ++ [importing r key .function name])).routed? (.name name) = some f := by
  have hfill : (reached run).fill (importing r key .function name) (.name .function name) =
      .copied (.key r key) := fill_importing h (by simp [Extern.kind]) name
  exact routed?_name_iff.mpr ((copied_concat hfill).1.trans h)

theorem itemAt_aliasing {r source field : String}
    (h : (reached run).itemAt (.key r ⟨source, field⟩) = some (.function f)) (target : String) :
    (reached (run ++ [aliasing r target source])).itemAt (.key r ⟨target, field⟩) =
      some (.function f) := by
  have hfill : (reached run).fill (aliasing r target source) (.key r ⟨target, field⟩) =
      .copied (.key r ⟨source, field⟩) := by
    simp [aliasing, fill, fillRegistry, fillOverlay, h]
  exact (copied_concat hfill).1.trans h

theorem routed?_placing {table name : String} {x : Addr .table} {signature : SignatureRef}
    {id : SignatureId} {index : BitVec 32}
    (hx : (reached run).names.find? .table table = some x)
    (hid : (reached run).names.lookupSignature signature = .ok id)
    (hname : (reached run).routed? (.name name) = some f)
    (hindex : index.toNat < ((reached run).store.table x).size) :
    (reached (run ++ [placing table index ⟨signature, name⟩])).routed?
      (.slot table signature index) = some f := by
  have hfind : (reached run).names.find? .function name = some f := hname
  have helement : (reached run).names.lookupElement ⟨signature, name⟩ = .ok ⟨id, f⟩ := by
    simp only [Names.lookupElement, hid, lookup_of_find? hfind]
    rfl
  obtain ⟨t, hset⟩ : ∃ t, ((reached run).store.table x).set index (some ⟨id, f⟩) = .ok t :=
    ⟨_, Table.set_eq_ok_iff.mpr ⟨hindex, rfl⟩⟩
  have hact : (reached run).act (placing table index ⟨signature, name⟩) =
      (reached run).withStore ((reached run).store.setTable x t) := by
    simp only [placing, act, step, tableStep, lookup_of_find? hx, helement, withFound, tablePerform,
      Store.onTable, Table.perform, hset]
    rfl
  have hitem : (reached run).itemAt (.name .table table) = some (.table x) := by
    simp [itemAt, hx, Extern.shared?]
  have htable : ((reached run).store.setTable x t).table x = t :=
    (reached run).store.table_setTable_same (has_of_itemAt hitem) t
  rw [reached_concat, hact]
  refine callee?_eq_some (x := x) hx hid ?_
  exact (congrArg (Table.callee · id index) htable).trans (Table.callee_of_set hset)

theorem handedOn (run : List Act) (f : Addr .function) : HandedOn run f where
  imported _ _ name h := routed?_importing h name
  aliased _ target _ _ h := itemAt_aliasing h target
  placed _ _ _ _ _ _ hx hid hname hindex := routed?_placing hx hid hname hindex

/-! ## Registrations -/

/-- Functions never change, so what a registration leaves prints ever after. -/
theorem exists_print_of_registration (run : List Act) (r module : String) {field : String}
    (h : field ∈ Spectest.printFields) :
    ∃ f, (reached (run ++ [registration r module])).itemAt (.key r ⟨module, field⟩) =
        some (.function f) ∧
      ∀ later, Prints (reached (run ++ registration r module :: later)) f field := by
  obtain ⟨i, hi⟩ := List.mem_iff_getElem?.mp h
  have hmakes := Spectest.new_of_mem_exports (reached run).store ((reached run).registry r) module
    (Spectest.mem_exports_of_printFields hi) rfl
  have hfunction := Spectest.function_register (reached run).store ((reached run).registry r) module
    hi
  rw [← store_registration] at hfunction hmakes
  refine ⟨⟨(reached run).store.functions.size + i⟩, ?_, ?_⟩
  · have hkey := (reached run).itemAt_registryPerform_same r (.spectest module) ⟨module, field⟩
    rw [Registry.state_perform_spectest, hmakes.found] at hkey
    rw [reached_concat]
    exact hkey
  · intro later
    rw [List.append_cons]
    exact prints_of_function ((function_append hmakes.made).trans hfunction)

theorem shown {p : FloatPrinter} (hp : p.Plain) {field : String}
    (h : field ∈ Spectest.printFields) (args : Args) : Shown p field args where
  level := rfl
  channel := rfl
  message := rfl
  fields := rfl
  reads := Event.reads_printedText hp (Event.bracket_not_mem_of_mem_printFields h) args

end

/-- A registration under any module name leaves a print function under each key for one. Whatever is
done later, in whatever order, calls of it return nothing, change nothing and send one event: for
information, on a channel of its own, with the field and the arguments in its message. The route by
which the function was found is not in it, be it a name, a key, an alias or a slot. With any printer
that tells floats apart and writes them without blanks, two messages are the same exactly if the
fields are and the arguments are, one by one. -/
theorem printed_output_loses_nothing (p : FloatPrinter) (hp : p.Plain) :
    (∀ run r module, ((reached run).step (.registry r (.spectest module))).result = .ok .done ∧
      ∀ field ∈ Spectest.printFields, ∃ f,
        (reached (run ++ [registration r module])).itemAt (.key r ⟨module, field⟩) =
          some (.function f) ∧
        ∀ later, Prints (reached (run ++ registration r module :: later)) f field) ∧
    (∀ run f, HandedOn run f) ∧
    (∀ field ∈ Spectest.printFields, ∀ args, Shown p field args) ∧
    ∀ field ∈ Spectest.printFields, ∀ field' ∈ Spectest.printFields, ∀ args args' : Args,
      (Event.printed field args).messageWith p = (Event.printed field' args').messageWith p ↔
        field = field' ∧ List.Forall₂ (fun v w => (v == w) = true) args args' := by
  refine ⟨?_, handedOn, fun field h args => shown hp h args, ?_⟩
  · intro run r module
    refine ⟨(registers_registration run r module).answer, ?_⟩
    intro field h
    exact exists_print_of_registration run r module h
  · intro field h field' h' args args'
    rw [Event.forall₂_beq_iff]
    exact Event.printedText_inj hp (Event.bracket_not_mem_of_mem_printFields h)
      (Event.bracket_not_mem_of_mem_printFields h')

/-- A module is registered under another name than usual, and a function of it is imported through
an alias and put into a table. -/
def throughAliasAndTable : List Act :=
  [registration "main" "host", aliasing "main" "env" "host",
    importing "main" ⟨"env", "print"⟩ .function "p",
    .command (.table "t" (.allocate 4 4)), placing "t" 2#32 ⟨.number ⟨0⟩, "p"⟩]

def signallingAndLeast : Args := [.f32 (.ofBits 0x7FA00000#32), .i32 0x80000000#32]

/-- The message of a call through the slot names neither the modules nor the table. -/
theorem printed_through_alias_and_table :
    FloatPrinter.hexadecimal.Plain ∧ (reached throughAliasAndTable).step
        ((Route.slot "t" (.number ⟨0⟩) 2#32).calling signallingAndLeast) =
      ⟨reached throughAliasAndTable, .ok (.values []), [.printed "print" signallingAndLeast]⟩ ∧
      (Event.printed "print" signallingAndLeast).message =
        "print(f32:nan:0x200000 i32:-2147483648)" := by
  have hplain := FloatPrinter.documented_hexadecimal.plain
  obtain ⟨hregistrations, _, hshown, _⟩ := printed_output_loses_nothing .hexadecimal hplain
  obtain ⟨_, hregistered⟩ := hregistrations [] "main" "host"
  obtain ⟨f, hkey, hprints⟩ := hregistered "print" (by decide)
  obtain rfl : ⟨0⟩ = f := Extern.function.inj (Option.some.inj hkey)
  refine ⟨hplain, (hprints throughAliasAndTable.tail).step _ signallingAndLeast rfl, ?_⟩
  refine (hshown "print" (by decide) signallingAndLeast).message.trans ?_
  decide +kernel

end Script
end WasmHost
