import StackCompiler.Bytecode.Opcode
import StackCompiler.Error
import StackCompiler.Text.Quoted

/-!
# Bytecode functions

A `Bytecode.Function` is one function of a stack-machine program with everything it
refers to: its constants, the names of its variables, and the functions nested in
it.  `Function.select` walks down the nesting.
-/

namespace StackCompiler.Bytecode

/-- A literal. -/
inductive Constant where
  | none
  | integer (n : Int64)
  | string (s : String)
  | boolean (b : Bool)
  deriving DecidableEq, Repr, Inhabited

/-- The form in which a constant is shown. -/
def Constant.display : Constant → String
  | none => "None"
  | integer n => toString n.toInt
  | string s => Text.quoted s
  | boolean b => if b then "true" else "false"

/-- One instruction; whether the operand is there need not agree with the opcode. -/
structure Instruction where
  op : Opcode
  operand : Option Int32 := none
  deriving DecidableEq, Repr, Inhabited

/-- The form in which an instruction is shown. -/
def Instruction.display (i : Instruction) : String :=
  match i.operand with
  | some n => s!"{i.op.mnemonic} {n.toInt}"
  | none => i.op.mnemonic

/-- A function of a stack-machine program. -/
structure Function where
  functions : List Function := []
  constants : List Constant := []
  parameterCount : UInt64 := 0
  localVars : List String := []
  localRefVars : List String := []
  freeVars : List String := []
  names : List String := []
  instructions : List Instruction := []
  deriving Inhabited

namespace Function

mutual

/-- Whether two functions are equal. -/
def beq : Function → Function → Bool
  | ⟨fs, cs, n, vs, rs, us, ns, is⟩, ⟨fs', cs', n', vs', rs', us', ns', is'⟩ =>
    beqs fs fs' && cs == cs' && n == n' && vs == vs' && rs == rs' && us == us' && ns == ns' &&
      is == is'

/-- Whether two lists of functions are equal. -/
def beqs : List Function → List Function → Bool
  | [], [] => true
  | f :: fs, g :: gs => beq f g && beqs fs gs
  | _, _ => false

end

instance : BEq Function := ⟨beq⟩

/-- The function that indices down the nesting lead to. -/
def select? : Function → List Nat → Option Function
  | f, [] => some f
  | f, i :: path => (f.functions[i]?).bind (select? · path)

/-- The nested function at `path`; the whole path is reported when it leads nowhere. -/
def select (f : Function) (path : List Nat) : Except CompileError Function :=
  match f.select? path with
  | some g => .ok g
  | none => .error (.badFunctionPath path)

/-- The names of the closure references: those of local cells, then free variables. -/
def references (f : Function) : List String := f.localRefVars ++ f.freeVars

end Function

end StackCompiler.Bytecode
