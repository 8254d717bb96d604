import StackCompiler.Bytecode.Function
import StackCompiler.Bytecode.Grammar

/-!
# Bytecode text

`Function.parse` reads a function from its text.  The text is matched against the
grammar first; then numbers are read, mnemonics are looked up, and operands are
checked against the opcodes, in the order of the text within each function.
-/

namespace StackCompiler.Bytecode

open Grammar

/-- The number that a numeral spells. -/
def Grammar.Numeral.value (n : Numeral) : Int :=
  match n.digits with
  | '-' :: digits => -(Text.decimal digits : Int)
  | digits => Text.decimal digits

/-- The text that the characters of a string literal denote: a backslash before `n`
or `t` makes a newline or a tabulator, and before any other character it drops out. -/
def unescape : List Char → List Char
  | [] => []
  | '\\' :: 'n' :: rest => '\n' :: unescape rest
  | '\\' :: 't' :: rest => '\t' :: unescape rest
  | '\\' :: c :: rest => c :: unescape rest
  | c :: rest => c :: unescape rest

/-- Refuses what stands at `start` in `text`. -/
def refuse {α : Type} (text start : List Char) (message : String) : Except CompileError α :=
  let p := Text.Position.ofRest text start
  .error (.refusedText p.line p.column message)

/-- The number of a numeral that lies in `low ≤ n ≤ high`. -/
def Grammar.Numeral.read (text : List Char) (low high : Int) (n : Numeral) :
    Except CompileError Int :=
  if low ≤ n.value ∧ n.value ≤ high then .ok n.value
  else refuse text n.start "number out of range"

/-- Reads a constant. -/
def Grammar.ConstantTree.read (text : List Char) : ConstantTree → Except CompileError Constant
  | .none => return .none
  | .boolean b => return .boolean b
  | .integer n => do
    return .integer (.ofInt (← n.read text Int64.minValue.toInt Int64.maxValue.toInt))
  | .string cs => return .string (.ofList (unescape cs))

/-- The opcode with the given mnemonic; an unknown one is a defect of whoever wrote it. -/
def Opcode.parse (mnemonic : String) : Except CompileError Opcode :=
  match Opcode.ofMnemonic? mnemonic with
  | some op => .ok op
  | none => .error (.invalidOperation s!"unrecognized opcode `{mnemonic}`")

/-- Reads an instruction. -/
def Grammar.InstructionTree.read (text : List Char) (i : InstructionTree) :
    Except CompileError Instruction := do
  let op ← Opcode.parse (.ofList i.mnemonic)
  let operand ← match i.operand with
    | some n => do
      pure (some (Int32.ofInt (← n.read text Int32.minValue.toInt Int32.maxValue.toInt)))
    | none => pure none
  if op.takesOperand = operand.isSome then
    return ⟨op, operand⟩
  else if op.takesOperand then
    refuse text i.start s!"`{op.mnemonic}` expects an operand"
  else
    refuse text i.start s!"`{op.mnemonic}` takes no operand"

mutual

/-- Reads a function. -/
def Grammar.FunctionTree.read (text : List Char) : FunctionTree → Except CompileError Function
  | ⟨functions, constants, parameterCount, localVars, localRefVars, freeVars, names,
      instructions⟩ => do
    let functions ← Grammar.FunctionTree.readAll text functions
    let constants ← constants.mapM (·.read text)
    let parameterCount ← parameterCount.read text 0 (UInt64.size - 1)
    let instructions ← instructions.mapM (·.read text)
    return {
      functions, constants, instructions
      parameterCount := UInt64.ofNat parameterCount.toNat
      localVars := localVars.map String.ofList
      localRefVars := localRefVars.map String.ofList
      freeVars := freeVars.map String.ofList
      names := names.map String.ofList }

/-- Reads functions, one after the other. -/
def Grammar.FunctionTree.readAll (text : List Char) :
    List FunctionTree → Except CompileError (List Function)
  | [] => return []
  | f :: fs => do
    let f ← Grammar.FunctionTree.read text f
    return f :: (← Grammar.FunctionTree.readAll text fs)

end

/-- Reads a function from its text. -/
def Function.parse (source : String) : Except CompileError Function :=
  match file? source.toList with
  | some tree => tree.read source.toList
  | none => .error .unreadableText

end StackCompiler.Bytecode
