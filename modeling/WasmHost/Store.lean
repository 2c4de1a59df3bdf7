import WasmHost.Memory.Op
import WasmHost.Table.Op
import WasmHost.HostFunction

/-!
# WasmHost.Store

All objects that modules share, by address. An address is handed out once and stays valid, since
objects are added and changed but never removed.
-/

namespace WasmHost

structure Store where
  memories : Array Memory
  tables : Array Table
  functions : Array HostFunction
  globals : Array Value

namespace Store

def empty : Store := ⟨#[], #[], #[], #[]⟩

instance : Inhabited Store := ⟨empty⟩

def memory (s : Store) (a : Addr .memory) : Memory := (s.memories[a.index]?).getD default

def table (s : Store) (a : Addr .table) : Table := (s.tables[a.index]?).getD default

def function (s : Store) (a : Addr .function) : HostFunction := (s.functions[a.index]?).getD default

def global (s : Store) (a : Addr .global) : Value :=
  (s.globals[a.index]?).getD (Value.zero .i32)

def addMemory (s : Store) (m : Memory) : Store × Addr .memory :=
  ({ s with memories := s.memories.push m }, ⟨s.memories.size⟩)

def addTable (s : Store) (t : Table) : Store × Addr .table :=
  ({ s with tables := s.tables.push t }, ⟨s.tables.size⟩)

def addFunction (s : Store) (f : HostFunction) : Store × Addr .function :=
  ({ s with functions := s.functions.push f }, ⟨s.functions.size⟩)

def addGlobal (s : Store) (v : Value) : Store × Addr .global :=
  ({ s with globals := s.globals.push v }, ⟨s.globals.size⟩)

def setMemory (s : Store) (a : Addr .memory) (m : Memory) : Store :=
  { s with memories := s.memories.setIfInBounds a.index m }

def setTable (s : Store) (a : Addr .table) (t : Table) : Store :=
  { s with tables := s.tables.setIfInBounds a.index t }

def onMemory (s : Store) (a : Addr .memory) (op : Memory.Op) : Outcome Store Trap Memory.Answer :=
  ((s.memory a).perform op).lift (s.setMemory a)

def onTable (s : Store) (a : Addr .table) (op : Table.Op) : Outcome Store Trap Table.Answer :=
  ((s.table a).perform op).lift (s.setTable a)

/-- The type of a global is the type of what it holds; no other value can be put in. -/
def setGlobal (s : Store) (a : Addr .global) (v : Value) : Except LinkError Store :=
  if v.typ = (s.global a).typ then
    .ok { s with globals := s.globals.setIfInBounds a.index v }
  else
    .error (.globalTypeMismatch (s.global a).typ v.typ)

/-- The address again, if the global has the type. -/
def expectGlobal (s : Store) (a : Addr .global) (t : ValType) :
    Except LinkError (Addr .global) :=
  if (s.global a).typ = t then
    .ok a
  else
    .error (.globalTypeMismatch (s.global a).typ t)

end Store

end WasmHost
