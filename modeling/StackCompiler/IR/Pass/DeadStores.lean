import StackCompiler.IR.Pass.Sweep

/-!
# Dead stores

A store to a variable that is not read afterwards is removed.  Removing a store also
removes the load that fed it, which can leave earlier stores unread, so the pass
repeats until it finds none.
-/

namespace StackCompiler.IR

/-- Whether an instruction stores to a variable whose interval ends here or before. -/
def Function.isDeadStore (f : Function) (entry : Nat × Inst) : Bool :=
  let (pos, inst) := entry
  match inst with
  | .store dest _ =>
    f.isVar dest &&
      match (f.operand dest).liveEnd with
      | some stop => stop ≤ pos
      | none => false
  | _ => false

namespace State

/-- Removes one dead store. -/
def removeStore (s : State) (entry : Nat × Inst) : State :=
  ((s.remove entry.1).markAll entry.2.uses).count fun stats =>
    { stats with deadStores := stats.deadStores + 1 }

/-- Removes dead stores as long as there are any. -/
def removeStores : Nat → State → Attempt State State
  | 0, s => .ok s
  | fuel + 1, s => do
    let s ← s.analyze Function.readIntervals
    match s.func.live.filter s.func.isDeadStore with
    | [] => return s
    | dead => removeStores fuel (dead.foldl removeStore s).sweep.compact

end State

/-- Removes stores that are never read.  Every repetition but the last removes an
instruction. -/
def deadStores : Pass := fun s => State.removeStores (s.func.size + 1) s

end StackCompiler.IR
