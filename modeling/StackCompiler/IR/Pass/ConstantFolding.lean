import StackCompiler.IR.Pass.State
import StackCompiler.Word

/-!
# Constant folding

An operation whose operands all equal literals is replaced by an assignment of the
result.  Arithmetic is that of the 61-bit payload of runtime words.
-/

namespace StackCompiler.IR

open Bytecode (Constant)

/-- The integer that a literal is. -/
def integerOf : Constant → Except CompileError Int64
  | .integer n => .ok n
  | c => .error (.illegalCast s!"value {c.display} is not an int")

/-- The boolean that a literal is. -/
def booleanOf : Constant → Except CompileError Bool
  | .boolean b => .ok b
  | c => .error (.illegalCast s!"value {c.display} is not a bool")

/-- The result of an operation on integers. -/
def onIntegers {α : Type} (l r : Constant) (operation : Int64 → Int64 → α) :
    Except CompileError α := do
  let a ← integerOf l
  let b ← integerOf r
  return operation a b

/-- The result of an operation on literals; none when only the runtime can tell. -/
def BinOp.fold (l r : Constant) : BinOp → Except CompileError (Option Constant)
  | add =>
    match l, r with
    | .integer a, .integer b => .ok (some (.integer (Word.wrap (a + b))))
    | .string a, .string b => .ok (some (.string (a ++ b)))
    | _, _ => .ok none
  | intAdd => onIntegers l r fun a b => some (.integer (Word.wrap (a + b)))
  | sub => onIntegers l r fun a b => some (.integer (Word.wrap (a - b)))
  | mul => onIntegers l r fun a b => some (.integer (Word.wrap (a * b)))
  | div => do
    let a ← integerOf l
    let b ← integerOf r
    if b = 0 then .error (.illegalArithmetic "divide by zero")
    else return some (.integer (Word.wrap (a / b)))
  | gt => onIntegers l r fun a b => some (.boolean (b < a))
  | geq => onIntegers l r fun a b => some (.boolean (b ≤ a))
  | eq | fastEq => .ok (some (.boolean (l = r)))
  | and => do
    let a ← booleanOf l
    if a then return some (.boolean (← booleanOf r)) else return some (.boolean false)
  | or => do
    let a ← booleanOf l
    if a then return some (.boolean true) else return some (.boolean (← booleanOf r))

/-- The result of a unary operation on a literal. -/
def UnOp.fold (value : Constant) : UnOp → Except CompileError (Option Constant)
  | neg => do return some (.integer (Word.wrap (-(← integerOf value))))
  | not => do return some (.boolean !(← booleanOf value))

/-- What an instruction defines, what it reads, and the result of running it on the
literals that its operands equal. -/
def Function.foldInst? (f : Function) :
    Inst → Option (OperandId × List OperandId × Except CompileError (Option Constant))
  | .binary op dest lhs rhs => do
    let l ← (f.operand lhs).constant
    let r ← (f.operand rhs).constant
    return (dest, [lhs, rhs], op.fold l r)
  | .unary op dest src => do
    let value ← (f.operand src).constant
    return (dest, [src], op.fold value)
  | _ => none

/-- Puts the assignment of a literal in the place of an operation. -/
def State.foldTo (s : State) (pos : Nat) (dest : OperandId) (sources : List OperandId)
    (value : Constant) : State :=
  let (src, func) := s.func.newConstant value
  let func := (func.addTypes dest (.ofConstant value)).modify dest fun o =>
    { o with constant := some value }
  ({ s with func }.replace pos (.assign dest src)).markAll sources
    |>.count fun stats => { stats with folded := stats.folded + 1 }

/-- Folds one instruction. -/
def State.foldAt (s : State) (entry : Nat × Inst) : Attempt State State :=
  let (pos, inst) := entry
  match s.func.foldInst? inst with
  | some (dest, sources, .ok (some value)) => .ok (s.foldTo pos dest sources value)
  | some (_, _, .error cause) => s.report cause
  | _ => .ok s

/-- Folds operations on literals. -/
def foldConstants : Pass := fun s => s.func.live.foldlM State.foldAt s

end StackCompiler.IR
