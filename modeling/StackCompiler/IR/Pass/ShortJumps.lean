import StackCompiler.IR.Pass.State

/-!
# Short jumps

A jump to a label that is near takes the short machine encoding.
-/

namespace StackCompiler.IR

/-- Shortens the jump at a position. -/
def State.shortenAt (s : State) (entry : Nat × Inst) : Attempt State State :=
  let (pos, inst) := entry
  match inst with
  | .jump l => do
    let target ← Attempt.orStop s (s.func.labelPosition l)
    if (pos - target) + (target - pos) ≤ s.ctx.options.shortJumpMax.toNat then
      return (s.replace pos (.shortJump l)).count fun stats =>
        { stats with shortJumps := stats.shortJumps + 1 }
    else return s
  | _ => .ok s

/-- Gives the short form to the jumps within the distance that the options allow. -/
def shortJumps : Pass := fun s => s.func.live.foldlM State.shortenAt s

end StackCompiler.IR
