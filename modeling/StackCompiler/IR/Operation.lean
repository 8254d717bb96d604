import StackCompiler.IR.Inst

/-!
# Checked operations

An `Operation` is a bytecode instruction whose operand has been checked against the
tables of its function.  `Operation.ofInstruction` makes the check; what it accepts
can only fail for want of values on the stack, or by marking a label twice.
-/

namespace StackCompiler.IR

open Bytecode (Opcode Instruction)

/-- What a bytecode instruction asks for. -/
inductive Operation where
  /-- Pushes the value of an operand. -/
  | load (source : OperandKind)
  /-- Pops a value into a variable, a global or a closure cell. -/
  | store (dest : OperandKind)
  | allocRecord
  | fieldLoad (field : Nat)
  | fieldStore (field : Nat)
  | indexLoad
  | indexStore
  /-- Pops a function and then this many references. -/
  | allocClosure (refs : Nat)
  /-- Pops a closure and then this many arguments, the last one first. -/
  | call (args : Nat)
  | ret
  /-- Pops the right operand and then the left one. -/
  | binary (op : BinOp)
  | unary (op : UnOp)
  | label (l : Label)
  | goto (l : Label)
  /-- Pops a condition and jumps when it is `true`. -/
  | branch (l : Label)
  | dup
  | swap
  | pop
  | collect
  | throwUninitialized (name : Nat)
  deriving DecidableEq, Repr

namespace Operation

/-- The operand of the instruction at `index`, which must be there. -/
def operandOf (index : Nat) (i : Instruction) : Except CompileError Int :=
  match i.operand with
  | some n => .ok n.toInt
  | none => .error (.invalidOperation
      s!"`{i.op.mnemonic}` at bytecode instruction {index} has no operand")

/-- The operand as an index into a table of `length` entries. -/
def indexInto (index : Nat) (i : Instruction) (table : String) (length : Nat) :
    Except CompileError Nat := do
  let n ← operandOf index i
  if 0 ≤ n ∧ n < length then .ok n.toNat else .error (.badIndex table n)

/-- The operand as the number of a label. -/
def labelOf (index : Nat) (i : Instruction) : Except CompileError Label := do
  let n ← operandOf index i
  if 0 ≤ n then .ok n.toNat else .error (.badIndex "label" n)

/-- The operand as a count. -/
def countOf (index : Nat) (i : Instruction) : Except CompileError Nat := do
  let n ← operandOf index i
  if 0 ≤ n then .ok n.toNat
  else .error (.invalidOperation s!"`{i.op.mnemonic}` with negative count {n}")

/-- Checks the instruction at `index` of a function. -/
def ofInstruction (f : Bytecode.Function) (index : Nat) (i : Instruction) :
    Except CompileError Operation :=
  let into := indexInto index i
  match i.op with
  | .loadConst => do
    let n ← into "constant" f.constants.length
    return .load (.const (f.constants.getD n .none))
  | .loadFunc => return .load (.function (← into "function" f.functions.length))
  | .loadLocal => return .load (.var (← into "local" f.localVars.length))
  | .storeLocal => return .store (.var (← into "local" f.localVars.length))
  | .loadGlobal => return .load (.global (← into "global" f.names.length))
  | .storeGlobal => return .store (.global (← into "global" f.names.length))
  | .pushRef => return .load (.cell (← into "reference" f.references.length))
  | .loadRef => return .load (.contents (← into "reference" f.references.length))
  | .storeRef => return .store (.contents (← into "reference" f.references.length))
  | .allocRecord => return .allocRecord
  | .fieldLoad => return .fieldLoad (← into "name" f.names.length)
  | .fieldStore => return .fieldStore (← into "name" f.names.length)
  | .indexLoad => return .indexLoad
  | .indexStore => return .indexStore
  | .allocClosure => return .allocClosure (← countOf index i)
  | .call => return .call (← countOf index i)
  | .ret => return .ret
  | .add => return .binary .add
  | .sub => return .binary .sub
  | .mul => return .binary .mul
  | .div => return .binary .div
  | .gt => return .binary .gt
  | .geq => return .binary .geq
  | .eq => return .binary .eq
  | .and => return .binary .and
  | .or => return .binary .or
  | .neg => return .unary .neg
  | .not => return .unary .not
  | .label => return .label (← labelOf index i)
  | .goto => return .goto (← labelOf index i)
  | .branch => return .branch (← labelOf index i)
  | .dup => return .dup
  | .swap => return .swap
  | .pop => return .pop
  | .collect => return .collect
  | .throwUninitialized => return .throwUninitialized (← into "reference" f.references.length)

end Operation

end StackCompiler.IR
