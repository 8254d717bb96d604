import StackCompiler.IR.Pass.State

/-!
# Specialization

Addition and equality of any two values give way to their inline forms once the types
of both operands are proved.
-/

namespace StackCompiler.IR

/-- The inline form of an operation on operands of proved types. -/
def BinOp.specialized? (lhs rhs : Operand) : BinOp → Option BinOp
  | add => if lhs.isInt && rhs.isInt then some intAdd else none
  | eq =>
    if (lhs.isInt && rhs.isInt) || (lhs.isBool && rhs.isBool) then some fastEq else none
  | _ => none

/-- Specializes one instruction. -/
def State.specializeAt (s : State) (entry : Nat × Inst) : State :=
  let (pos, inst) := entry
  match inst with
  | .binary op dest lhs rhs =>
    match op.specialized? (s.func.operand lhs) (s.func.operand rhs) with
    | some fast =>
      { s with func := s.func.addTypes dest fast.resultTypes }
        |>.replace pos (.binary fast dest lhs rhs)
        |>.count fun stats => { stats with specialized := stats.specialized + 1 }
    | none => s
  | _ => s

/-- Replaces operations by their inline forms. -/
def specializeTypes : Pass := fun s => .ok (s.func.live.foldl State.specializeAt s)

end StackCompiler.IR
