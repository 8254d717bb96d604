import StackCompiler.Attempt
import StackCompiler.IR.Function

/-!
# Live intervals

The interval of a temp goes from its definition to its last read.  The interval of a
variable goes from its first access to its last read, and a jump back extends it: a
variable read between the target and the jump is needed at least until the jump.

`readIntervals` computes these.  In `intervals` the interval of a variable also covers
its last write, so that its register stays its own until then.
-/

namespace StackCompiler.IR

namespace Operand

/-- The operand with its live interval forgotten. -/
def clearInterval (o : Operand) : Operand := { o with liveStart := none, liveEnd := none }

/-- Extends the interval down to a definition. -/
def definedAt (pos : Nat) (o : Operand) : Operand :=
  { o with liveStart := some (match o.liveStart with
    | some start => min start pos
    | none => pos) }

/-- Extends the interval up to a read. -/
def readAt (pos : Nat) (o : Operand) : Operand :=
  { o with liveEnd := some (match o.liveEnd with
    | some stop => max stop pos
    | none => pos) }

/-- Opens the interval at a write; the write ends it only if nothing else does. -/
def writtenAt (pos : Nat) (o : Operand) : Operand :=
  let o := o.definedAt pos
  { o with liveEnd := some (o.liveEnd.getD pos) }

/-- Moves the end of an interval up to a position. -/
def extendedTo (pos : Nat) (o : Operand) : Operand :=
  { o with liveEnd := o.liveEnd.map (max · pos) }

end Operand

namespace Function

/-- Forgets every live interval. -/
def clearIntervals (f : Function) : Function :=
  { f with operands := f.operands.map Operand.clearInterval }

/-- Records what an instruction does to temps: reads before definitions. -/
def visitTemps (f : Function) (entry : Nat × Inst) : Function :=
  let (pos, inst) := entry
  let f := (inst.uses.filter f.isTemp).foldl (fun f id => f.modify id (·.readAt pos)) f
  (inst.defs.filter f.isTemp).foldl (fun f id => f.modify id (·.definedAt pos)) f

/-- The variables read from position `target` to position `jump`. -/
def varsReadBetween (f : Function) (target jump : Nat) : List OperandId :=
  f.live.filterMap fun (pos, inst) =>
    match inst with
    | .assign _ src => if target ≤ pos && pos ≤ jump && f.isVar src then some src else none
    | _ => none

/-- Keeps what is read from `target` to `jump` alive until `jump`. -/
def extendLoop (f : Function) (target jump : Nat) : Function :=
  (f.varsReadBetween target jump).foldl (fun f id => f.modify id (·.extendedTo jump)) f

/-- Records what an instruction does to variables. -/
def visitVars (f : Function) (entry : Nat × Inst) : Attempt Function Function :=
  let (pos, inst) := entry
  match inst with
  | .assign _ src =>
    .ok (if f.isVar src then f.modify src fun o => (o.definedAt pos).readAt pos else f)
  | .store dest _ => .ok (if f.isVar dest then f.modify dest (·.writtenAt pos) else f)
  | .forceLoad var => .ok (f.modify var (·.writtenAt pos))
  | .jump l | .shortJump l | .condJump _ l => do
    let target ← Attempt.orStop f (f.labelPosition l)
    return if target < pos then f.extendLoop target pos else f
  | _ => .ok f

/-- Extends the interval of the variable that an instruction writes up to the write. -/
def coverWrite (f : Function) (entry : Nat × Inst) : Function :=
  let (pos, inst) := entry
  match inst with
  | .store dest _ => if f.isVar dest then f.modify dest (·.extendedTo pos) else f
  | .forceLoad var => f.modify var (·.extendedTo pos)
  | _ => f

/-- Computes the live intervals that end at the last read.  A store to a variable at
or after the end of its interval is never read. -/
def readIntervals (f : Function) : Attempt Function Function :=
  f.live.foldlM visitVars (f.live.foldl visitTemps f.clearIntervals)

/-- Computes the live intervals that cover every access. -/
def intervals (f : Function) : Attempt Function Function := do
  let f ← f.readIntervals
  return f.live.foldl coverWrite f

end Function

end StackCompiler.IR
