import WasmHost.Call
import WasmHost.Interner
import WasmHost.Registry.Op
import WasmHost.Script.Names

/-!
# WasmHost.Script.Session

Running a script, command by command. Names are looked up before a command does anything else,
and a command that fails neither makes a name nor ends the script.
-/

namespace WasmHost
namespace Script

structure Session where
  store : Store
  names : Names
  interners : Directory String Interner
  registries : Directory String Registry
  tallies : Directory String Tally

namespace Session

def empty : Session := ⟨.empty, .empty, .empty, .empty, .empty⟩

/-- An interner, registry or tally that was not named before is a new one. -/
def interner (s : Session) (name : String) : Interner := (s.interners.find? name).getD .empty

def registry (s : Session) (name : String) : Registry := (s.registries.find? name).getD .empty

def tally (s : Session) (name : String) : Tally := (s.tallies.find? name).getD .empty

def setInterner (s : Session) (name : String) (i : Interner) : Session :=
  { s with interners := s.interners.insert name i }

def setRegistry (s : Session) (name : String) (r : Registry) : Session :=
  { s with registries := s.registries.insert name r }

def setTally (s : Session) (name : String) (t : Tally) : Session :=
  { s with tallies := s.tallies.insert name t }

def withStore (s : Session) (store : Store) : Session := { s with store := store }

def named (s : Session) (k : ExternKind) (name : Name k) (a : Addr k) : Session :=
  { s with names := s.names.save k name a }

def saveSignature (s : Session) (id : SignatureId) : Option String → Session
  | none => s
  | some name => { s with names := { s.names with
      signatures := s.names.signatures.insert name id } }

abbrev Step := Outcome Session Failure Reply

/-- Goes on with what a look-up found, or fails as it failed. -/
def withFound {α : Type} (s : Session) (found : Except Failure α) (k : α → Step) : Step :=
  match found with
  | .ok a => k a
  | .error e => .fail s e

/-- The outcome of an operation on the store as the outcome of a command. -/
def ofStore {α : Type} (s : Session) (o : Outcome Store Trap α) (reply : Store → α → Reply) :
    Step :=
  ((o.lift s.withStore).mapError .trap).map (reply o.state)

def memoryInfo (m : Memory) : MemoryInfo := ⟨m.size, m.maxPages, m.byteLen⟩

def tableInfo (t : Table) : TableInfo := ⟨t.size, t.maxLength⟩

def slotInfo (store : Store) (e : Element) : SlotInfo :=
  ⟨e.signature, (store.function e.function).name⟩

def memoryReply (m : Memory) : Memory.Answer → Reply
  | .done => .done
  | .value v => .payload v
  | .bytes b => .bytes b
  | .grown result => .memoryGrown result (memoryInfo m)

def tableReply (store : Store) (t : Table) : Table.Answer → Reply
  | .done => .done
  | .slot slot => .slot (slot.map (slotInfo store))
  | .grown result => .tableGrown result (tableInfo t)
  | .function f => .name (store.function f).name

def memoryStep (s : Session) (name : Name .memory) : MemoryCommand → Step
  | .allocate initial max =>
    match Memory.allocate initial max with
    | .error e => .fail s (.link e)
    | .ok m =>
      let (store, a) := s.store.addMemory m
      .pure ((s.withStore store).named .memory name a) (.memory (memoryInfo m))
  | .info =>
    s.withFound (s.names.lookup .memory name) fun a =>
      .pure s (.memory (memoryInfo (s.store.memory a)))
  | .perform op =>
    s.withFound (s.names.lookup .memory name) fun a =>
      s.ofStore (s.store.onMemory a op) fun store answer => memoryReply (store.memory a) answer
  | .dump =>
    s.withFound (s.names.lookup .memory name) fun a =>
      .pure s (.runs (s.store.memory a).nonzeroRuns)

def tablePerform (s : Session) (a : Addr .table) (op : Table.Op) : Step :=
  s.ofStore (s.store.onTable a op) fun store answer => tableReply store (store.table a) answer

def tableStep (s : Session) (name : Name .table) : TableCommand → Step
  | .allocate length max =>
    match Table.allocate length max with
    | .error e => .fail s (.link e)
    | .ok t =>
      let (store, a) := s.store.addTable t
      .pure ((s.withStore store).named .table name a) (.table (tableInfo t))
  | .info =>
    s.withFound (s.names.lookup .table name) fun a => .pure s (.table (tableInfo (s.store.table a)))
  | .get index =>
    s.withFound (s.names.lookup .table name) fun a => s.tablePerform a (.get index)
  | .set index e =>
    s.withFound (s.names.lookup .table name) fun a =>
      s.withFound (s.names.lookupElement e) fun e => s.tablePerform a (.set index e)
  | .clear index =>
    s.withFound (s.names.lookup .table name) fun a => s.tablePerform a (.clear index)
  | .init offset elements =>
    s.withFound (s.names.lookup .table name) fun a =>
      s.withFound (s.names.lookupElements elements) fun es => s.tablePerform a (.init offset es)
  | .grow delta slot =>
    s.withFound (s.names.lookup .table name) fun a =>
      s.withFound (s.names.lookupSlot slot) fun slot => s.tablePerform a (.grow delta slot)
  | .callee signature index =>
    s.withFound (s.names.lookup .table name) fun a =>
      s.withFound (s.names.lookupSignature signature) fun id => s.tablePerform a (.callee id index)
  | .call signature index args =>
    s.withFound (s.names.lookup .table name) fun a =>
      s.withFound (s.names.lookupSignature signature) fun id =>
        s.ofStore (s.store.callIndirect a id index args) fun _ values => .values values
  | .dump =>
    s.withFound (s.names.lookup .table name) fun a =>
      .pure s (.slots ((s.store.table a).populated.map
        (fun (i, e) => (i, slotInfo s.store e))))

def functionStep (s : Session) (name : Name .function) : FunctionCommand → Step
  | .make shown body =>
    s.withFound (s.names.lookupBody body) fun body =>
      let (store, a) := s.store.addFunction ⟨shown, body⟩
      .pure ((s.withStore store).named .function name a) .done
  | .info =>
    s.withFound (s.names.lookup .function name) fun a =>
      let f := s.store.function a
      .pure s (.function f.name f.describe)
  | .call args =>
    s.withFound (s.names.lookup .function name) fun a =>
      s.ofStore (s.store.call a args) fun _ values => .values values

def globalStep (s : Session) (name : Name .global) : GlobalCommand → Step
  | .make v =>
    let (store, a) := s.store.addGlobal v
    .pure ((s.withStore store).named .global name a) .done
  | .get =>
    s.withFound (s.names.lookup .global name) fun a => .pure s (.global (s.store.global a))
  | .set v =>
    s.withFound (s.names.lookup .global name) fun a =>
      match s.store.setGlobal a v with
      | .ok store => .pure (s.withStore store) .done
      | .error e => .fail s (.link e)
  | .expect t =>
    s.withFound (s.names.lookup .global name) fun a =>
      match s.store.expectGlobal a t with
      | .ok a => .pure s (.value (s.store.global a))
      | .error e => .fail s (.link e)

def signatureStep (s : Session) (name : String) : SignatureCommand → Step
  | .perform op save? =>
    match (s.interner name).perform op with
    | (_, none, _) => .fail s .arity
    | (i, some id, events) =>
      ⟨(s.setInterner name i).saveSignature id save?, .ok (.signature id), events⟩
  | .info => .pure s (.interner (s.interner name).size)

def registryPerform (s : Session) (name : String) (op : Registry.Op) :
    Outcome Session Failure Registry.Answer :=
  ((Registry.perform s.store (s.registry name) op).lift
    fun (store, r) => (s.withStore store).setRegistry name r).mapError .link

def externReply (store : Store) : Extern → Reply
  | .function a => .functionNamed (store.function a).name
  | .table a => .table (tableInfo (store.table a))
  | .memory a => .memory (memoryInfo (store.memory a))
  | .global a => .value (store.global a)
  | .constant v => .value v

def registryReply (store : Store) (kind? : Option ExternKind) : Registry.Answer → Reply
  | .done => .done
  | .flag b => .flag b
  | .count n => .count n
  | .item item =>
    match kind? with
    | none => .kind item.kind
    | some _ => externReply store item

def saveItem (s : Session) (answer : Registry.Answer) : Option String → Session
  | none => s
  | some name =>
    match answer with
    | .item item => { s with names := s.names.saveExtern name item }
    | _ => s

def registryStep (s : Session) (name : String) : RegistryCommand → Step
  | .define module field item =>
    s.withFound (s.names.lookupExtern item) fun item =>
      (s.registryPerform name (.define ⟨module, field⟩ item)).map (registryReply s.store none)
  | .resolve module field kind? save? =>
    (s.registryPerform name (.resolve ⟨module, field⟩ kind?)).andThen fun s answer =>
      .pure (s.saveItem answer save?) (registryReply s.store kind? answer)
  | .contains module field =>
    (s.registryPerform name (.contains ⟨module, field⟩)).map (registryReply s.store none)
  | .overlay target source =>
    (s.registryPerform name (.overlay target source)).map (registryReply s.store none)
  | .spectest module =>
    (s.registryPerform name (.spectest module)).map (registryReply s.store none)
  | .copyTo copy => .pure (s.setRegistry copy (s.registry name)) .done

/-- The value that an assertion judges: the first of those returned, or zero if there is none. -/
def firstValue (values : List Value) : Value := values.headD (Value.zero .i32)

/-- Fails only if a name stands for nothing; a trap is a result. -/
def probe (s : Session) : Probe → Except Failure (Outcome Store Trap Value)
  | .returned v => .ok (.pure s.store v)
  | .trapped t => .ok (.fail s.store t)
  | .numeric op args => .ok (.ofExcept s.store ((op.eval args).map Numeric.Answer.toValue))
  | .call function args =>
    (s.names.lookup .function function).map fun a => (s.store.call a args).map firstValue
  | .callIndirect table signature index args => do
    let a ← s.names.lookup .table table
    let id ← s.names.lookupSignature signature
    return (s.store.callIndirect a id index args).map firstValue
  | .load memory k position =>
    (s.names.lookup .memory memory).map fun a =>
      .ofExcept s.store ((s.store.memory a).loadFrom k position)

def tallyStep (s : Session) (name : String) : TallyCommand → Step
  | .check label a probe =>
    s.withFound (s.probe probe) fun o =>
      let verdict := (s.tally name).check label a o.result
      ⟨(s.withStore o.state).setTally name verdict.tally,
        .ok (.tally (some verdict.holds) verdict.tally), o.events ++ verdict.events⟩
  | .info => .pure s (.tally none (s.tally name))

def sameStep (s : Session) (k : ExternKind) (a b : Name k) : Step :=
  s.withFound (s.names.lookup k a) fun a =>
    s.withFound (s.names.lookup k b) fun b => .pure s (.flag (decide (a = b)))

def step (s : Session) : Command → Step
  | .memory name c => s.memoryStep name c
  | .table name c => s.tableStep name c
  | .function name c => s.functionStep name c
  | .global name c => s.globalStep name c
  | .signature interner c => s.signatureStep interner c
  | .registry name c => s.registryStep name c
  | .tally name c => s.tallyStep name c
  | .same k a b => s.sameStep k a b

/-- What each command of a script answers, and the events it sent. -/
def run (s : Session) : List Command → List (Except Failure Reply × List Event)
  | [] => []
  | c :: r =>
    let o := s.step c
    (o.result, o.events) :: run o.state r

/-- The session that a script leaves. -/
def after (s : Session) (script : List Command) : Session :=
  script.foldl (fun s c => (s.step c).state) s

end Session
end Script
end WasmHost
