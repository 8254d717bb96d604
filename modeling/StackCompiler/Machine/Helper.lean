import StackCompiler.Table

/-!
# Runtime helpers

Compiled code reaches the runtime only through these routines.  A `HelperTable` gives
their addresses; one that is not in the table is left at zero for the loader to fill in.
-/

namespace StackCompiler.Machine

/-- A routine of the runtime. -/
inductive Helper where
  | add | equals | callFunction | allocClosure
  | readGlobal | writeGlobal | readReference | writeReference | readFunction
  | garbageCollect | allocRecord | fieldLoad | fieldStore | indexLoad | indexStore
  | assertInt | assertNotZero | assertBool | throwUninitialized
  deriving DecidableEq, Repr

namespace Helper

/-- Every helper. -/
def all : List Helper :=
  [add, equals, callFunction, allocClosure, readGlobal, writeGlobal, readReference,
    writeReference, readFunction, garbageCollect, allocRecord, fieldLoad, fieldStore,
    indexLoad, indexStore, assertInt, assertNotZero, assertBool, throwUninitialized]

/-- The symbol of a helper. -/
def name : Helper → String
  | add => "add"
  | equals => "equals"
  | callFunction => "call_function"
  | allocClosure => "alloc_closure"
  | readGlobal => "read_global"
  | writeGlobal => "write_global"
  | readReference => "read_reference"
  | writeReference => "write_reference"
  | readFunction => "read_function"
  | garbageCollect => "garbage_collect"
  | allocRecord => "alloc_record"
  | fieldLoad => "field_load"
  | fieldStore => "field_store"
  | indexLoad => "index_load"
  | indexStore => "index_store"
  | assertInt => "assert_int"
  | assertNotZero => "assert_not_zero"
  | assertBool => "assert_bool"
  | throwUninitialized => "throw_uninitialized"

/-- The helper with the given symbol. -/
def ofName? (s : String) : Option Helper := all.find? (·.name == s)

/-- The names of the arguments, in the order of their registers. -/
def arguments : Helper → List String
  | add | equals => ["lhs", "rhs"]
  | callFunction => ["closure", "argv", "argc"]
  | allocClosure => ["function", "refv", "refc"]
  | readGlobal => ["closure", "name"]
  | writeGlobal => ["closure", "name", "value"]
  | readReference => ["cell"]
  | writeReference => ["cell", "value"]
  | readFunction => ["closure", "index"]
  | garbageCollect => ["frame"]
  | allocRecord => []
  | fieldLoad => ["closure", "record", "name"]
  | fieldStore => ["closure", "record", "name", "value"]
  | indexLoad => ["record", "index"]
  | indexStore => ["record", "index", "value"]
  | assertInt | assertNotZero | assertBool => ["value"]
  | throwUninitialized => ["closure", "name"]

end Helper

/-- The addresses of helpers. -/
abbrev HelperTable := Table Helper UInt64

/-- The address of a helper; zero when it is not known. -/
def HelperTable.address (table : HelperTable) (helper : Helper) : UInt64 :=
  (table.at? helper).getD 0

end StackCompiler.Machine
