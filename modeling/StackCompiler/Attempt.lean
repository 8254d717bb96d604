import StackCompiler.Error

/-!
# Attempts

An attempt at changing a state either gives a result, which is mostly the new state,
or stops with an error.  A stopped attempt tells how far it came: changes made before
the error are kept.
-/

namespace StackCompiler

/-- Why an attempt stopped, and the state at that point. -/
structure Stopped (σ : Type) where
  cause : CompileError
  state : σ

/-- Computations that may stop early, at a state of the given type. -/
abbrev Attempt (σ : Type) := Except (Stopped σ)

namespace Attempt

variable {σ τ α : Type}

/-- Stops at `state` when a computation fails. -/
def orStop (state : σ) : Except CompileError α → Attempt σ α
  | .ok value => .ok value
  | .error cause => .error ⟨cause, state⟩

/-- An attempt at changing a part of a state, seen in the whole. -/
def lift (whole : σ → τ) : Attempt σ σ → Attempt τ τ
  | .ok state => .ok (whole state)
  | .error stopped => .error ⟨stopped.cause, whole stopped.state⟩

/-- The state in which an attempt left things, and the error if it stopped. -/
def outcome : Attempt σ σ → σ × Option CompileError
  | .ok state => (state, none)
  | .error stopped => (stopped.state, some stopped.cause)

end Attempt

end StackCompiler
