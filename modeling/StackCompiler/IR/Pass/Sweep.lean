import StackCompiler.IR.Pass.State

/-!
# The sweep

The sweep removes the definitions of obsolete values and the assertions that are
proved or that guard obsolete values.  It goes backwards, so that an operation found
obsolete passes its mark on to its operands before their definitions are reached.  A
plain copy does not mark its source, which may have taken over the readers of the copy.
-/

namespace StackCompiler.IR

open Bytecode (Constant)

/-- Whether what is known about an operand proves an assertion. -/
def AssertKind.holds (o : Operand) : AssertKind → Bool
  | int => o.isInt
  | bool => o.isBool
  | notZero =>
    match o.constant with
    | some (.integer n) => n ≠ 0
    | _ => false

namespace State

/-- Sweeps one instruction. -/
def sweepAt (s : State) (entry : Nat × Inst) : State :=
  let (pos, inst) := entry
  match inst with
  | .assign dest _ => if s.isObsolete dest then s.remove pos else s
  | .binary _ dest lhs rhs =>
    if s.isObsolete dest then (s.remove pos).markAll [lhs, rhs] else s
  | .unary _ dest src => if s.isObsolete dest then (s.remove pos).mark src else s
  | .fork src dest1 dest2 =>
    match s.isObsolete dest1, s.isObsolete dest2 with
    | true, true => (s.remove pos).mark src
    | true, false => s.replace pos (.assign dest2 src)
    | false, true => s.replace pos (.assign dest1 src)
    | false, false => s
  | .assertion kind arg =>
    if s.isObsolete arg || kind.holds (s.func.operand arg) then s.remove pos else s
  | _ => s

/-- Removes what is obsolete and clears the marks. -/
def sweep (s : State) : State :=
  let s := s.func.live.reverse.foldl sweepAt s
  { s with ctx.obsolete := [] }

end State

/-- Runs a pass, sweeps what it made obsolete and drops the removed positions. -/
def Pass.run (pass : Pass) (s : State) : Attempt State State := do
  let s ← pass s
  return s.sweep.compact

end StackCompiler.IR
