/-!
# Bytecode opcodes

The operations of the stack machine, their mnemonics, and which of them carry an
operand.
-/

namespace StackCompiler.Bytecode

/-- An operation of the stack machine. -/
inductive Opcode where
  | loadConst | loadFunc | loadLocal | storeLocal | loadGlobal | storeGlobal
  | pushRef | loadRef | storeRef
  | allocRecord | fieldLoad | fieldStore | indexLoad | indexStore
  | allocClosure | call | ret
  | add | sub | mul | div | neg | gt | geq | eq | and | or | not
  | label | goto | branch
  | dup | swap | pop | collect | throwUninitialized
  deriving DecidableEq, Repr, Inhabited

namespace Opcode

/-- Every opcode. -/
def all : List Opcode :=
  [loadConst, loadFunc, loadLocal, storeLocal, loadGlobal, storeGlobal,
   pushRef, loadRef, storeRef,
   allocRecord, fieldLoad, fieldStore, indexLoad, indexStore,
   allocClosure, call, ret,
   add, sub, mul, div, neg, gt, geq, eq, and, or, not,
   label, goto, branch,
   dup, swap, pop, collect, throwUninitialized]

/-- The name of an opcode in both bytecode formats. -/
def mnemonic : Opcode → String
  | loadConst => "load_const"
  | loadFunc => "load_func"
  | loadLocal => "load_local"
  | storeLocal => "store_local"
  | loadGlobal => "load_global"
  | storeGlobal => "store_global"
  | pushRef => "push_ref"
  | loadRef => "load_ref"
  | storeRef => "store_ref"
  | allocRecord => "alloc_record"
  | fieldLoad => "field_load"
  | fieldStore => "field_store"
  | indexLoad => "index_load"
  | indexStore => "index_store"
  | allocClosure => "alloc_closure"
  | call => "call"
  | ret => "return"
  | add => "add"
  | sub => "sub"
  | mul => "mul"
  | div => "div"
  | neg => "neg"
  | gt => "gt"
  | geq => "geq"
  | eq => "eq"
  | and => "and"
  | or => "or"
  | not => "not"
  | label => "label"
  | goto => "goto"
  | branch => "if"
  | dup => "dup"
  | swap => "swap"
  | pop => "pop"
  | collect => "gc"
  | throwUninitialized => "throw_uninitialized"

/-- The opcode with the given mnemonic. -/
def ofMnemonic? (s : String) : Option Opcode := all.find? (·.mnemonic == s)

/-- Whether an opcode carries an operand. -/
def takesOperand : Opcode → Bool
  | loadConst | loadFunc | loadLocal | storeLocal | loadGlobal | storeGlobal
  | pushRef | loadRef | storeRef | fieldLoad | fieldStore | allocClosure | call
  | label | goto | branch | throwUninitialized => true
  | _ => false

end Opcode

end StackCompiler.Bytecode
