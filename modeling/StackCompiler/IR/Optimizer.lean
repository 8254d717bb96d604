import StackCompiler.IR.Pass.ConstantFolding
import StackCompiler.IR.Pass.DeadStores
import StackCompiler.IR.Pass.DeadTemps
import StackCompiler.IR.Pass.EntryLoads
import StackCompiler.IR.Pass.ShortJumps
import StackCompiler.IR.Pass.Specialization
import StackCompiler.IR.Pass.StoreForwarding
import StackCompiler.IR.Pass.TypePropagation

/-!
# The optimizer

The passes under their names, and `optimize`, which runs them in order: entry loads
always, then rounds of the others, and short jumps at the end.
-/

namespace StackCompiler.IR

/-- A pass that can be asked for by name. -/
inductive PassName where
  | loadVars | propagateTypes | foldConstants | specializeTypes | forwardStores
  | deadStores | deadTemps | shortJumps | sweep
  deriving DecidableEq, Repr

namespace PassName

/-- Every named pass. -/
def all : List PassName :=
  [loadVars, propagateTypes, foldConstants, specializeTypes, forwardStores,
    deadStores, deadTemps, shortJumps, sweep]

/-- The name of a pass. -/
def name : PassName → String
  | loadVars => "load-vars"
  | propagateTypes => "propagate-types"
  | foldConstants => "fold-constants"
  | specializeTypes => "specialize-types"
  | forwardStores => "forward-stores"
  | deadStores => "dead-stores"
  | deadTemps => "dead-temps"
  | shortJumps => "short-jumps"
  | sweep => "sweep"

/-- The pass with the given name. -/
def ofName? (s : String) : Option PassName := all.find? (·.name == s)

/-- The pass that a name stands for. -/
def pass : PassName → Pass
  | loadVars => IR.loadVars
  | propagateTypes => IR.propagateTypes
  | foldConstants => IR.foldConstants
  | specializeTypes => IR.specializeTypes
  | forwardStores => IR.forwardStores
  | deadStores => IR.deadStores
  | deadTemps => IR.deadTemps
  | shortJumps => IR.shortJumps
  | sweep => fun s => .ok s.sweep

/-- Runs a pass, sweeps and drops the removed positions. -/
def run (p : PassName) (s : State) : Attempt State State := p.pass.run s

/-- The passes of one round, in order. -/
def round : List PassName :=
  [propagateTypes, foldConstants, specializeTypes, forwardStores, deadStores, deadTemps]

end PassName

namespace State

/-- Runs named passes in order. -/
def runAll (s : State) (passes : List PassName) : Attempt State State :=
  passes.foldlM (fun s p => p.run s) s

/-- Runs a number of rounds. -/
def runRounds : Nat → State → Attempt State State
  | 0, s => .ok s
  | n + 1, s => do runRounds n (← s.runAll PassName.round)

/-- Runs the passes that the options ask for. -/
def runPasses (s : State) : Attempt State State := do
  let s ← PassName.loadVars.run s
  if s.ctx.options.optimize then
    PassName.shortJumps.run (← s.runRounds s.ctx.options.rounds.toNat)
  else return s

end State

/-- Optimizes a function and computes the live intervals of the result. -/
def optimize (f : Function) (options : Options) : Attempt State State := do
  let s ← State.runPasses { func := f, ctx := { options, stats := { before := f.size } } }
  let s ← s.analyze Function.intervals
  return s.count fun stats => { stats with after := s.func.size }

end StackCompiler.IR
