import StackCompiler.IR.Interval
import StackCompiler.Options

/-!
# Passes

A pass changes a function and a context.  The context holds the options, the operands
marked as obsolete, and counters of what was done.  A pass either removes an
instruction itself, or marks what it defines as obsolete and leaves it to the sweep.
-/

namespace StackCompiler.IR

/-- What the passes have done. -/
structure Stats where
  /-- The number of instructions before the first pass. -/
  before : Nat := 0
  /-- The number of instructions after the last pass. -/
  after : Nat := 0
  folded : Nat := 0
  specialized : Nat := 0
  forwarded : Nat := 0
  deadStores : Nat := 0
  removed : Nat := 0
  shortJumps : Nat := 0
  deriving DecidableEq, Repr, Inhabited

/-- What the passes of one compilation share. -/
structure Context where
  options : Options
  /-- Values that nothing needs any more. -/
  obsolete : IdSet := []
  stats : Stats := {}
  deriving Inhabited

/-- A function and the context of its passes. -/
structure State where
  func : Function
  ctx : Context
  deriving Inhabited

/-- A pass over a function. -/
abbrev Pass := State → Attempt State State

namespace State

/-- Whether an operand is marked as obsolete. -/
def isObsolete (s : State) (id : OperandId) : Bool := s.ctx.obsolete.contains id

/-- Marks an operand as obsolete. -/
def mark (s : State) (id : OperandId) : State :=
  { s with ctx.obsolete := IdSet.add id s.ctx.obsolete }

/-- Marks several operands as obsolete. -/
def markAll (s : State) (ids : List OperandId) : State := ids.foldl mark s

/-- Changes the counters. -/
def count (s : State) (change : Stats → Stats) : State :=
  { s with ctx.stats := change s.ctx.stats }

/-- Removes the instruction at a position. -/
def remove (s : State) (pos : Nat) : State := { s with func := s.func.remove pos }

/-- Puts an instruction in the place of the one at a position. -/
def replace (s : State) (pos : Nat) (inst : Inst) : State :=
  { s with func := s.func.replace pos inst }

/-- Drops the removed positions and counts them. -/
def compact (s : State) : State :=
  let (removed, func) := s.func.compact
  { s with func }.count fun stats => { stats with removed := stats.removed + removed }

/-- Runs an analysis of the function. -/
def analyze (s : State) (analysis : Function → Attempt Function Function) : Attempt State State :=
  (analysis s.func).lift fun func => { s with func }

/-- The error of an operation that is bound to fail when it runs: the attempt stops
if such errors are reported, and otherwise the operation is left to fail. -/
def report (s : State) (cause : CompileError) : Attempt State State :=
  if s.ctx.options.reportErrors then .error ⟨cause, s⟩ else .ok s

end State

end StackCompiler.IR
