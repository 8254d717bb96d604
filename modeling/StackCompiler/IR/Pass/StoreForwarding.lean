import StackCompiler.IR.Pass.State

/-!
# Store forwarding

A store to a location directly followed by a load from it reads back the value just
written.  The pair becomes a fork of the value, the store of one copy and the
assignment of the other, so that the load no longer depends on the location.
-/

namespace StackCompiler.IR

namespace Function

/-- The location, the stored value and the loading temp of a store and load that
start at a position. -/
def storeThenLoad? (f : Function) (pos : Nat) : Option (OperandId × OperandId × OperandId) :=
  match f.inst? pos, f.inst? (pos + 1) with
  | some (.store location src), some (.assign dest loaded) =>
    if loaded = location && f.isTemp dest then
      match (f.operand location).kind with
      | .var _ | .global _ | .contents _ => some (location, src, dest)
      | _ => none
    else none
  | _, _ => none

/-- Adds a temp that holds the same value as `src`. -/
def newCopy (f : Function) (src : OperandId) : OperandId × Function :=
  let known := f.operand src
  let (temp, f) := f.newTemp
  (temp, f.modify temp fun o => { o with types := known.types, constant := known.constant })

end Function

namespace State

/-- Forwards the value of the store and load at a position. -/
def forwardAt (s : State) (pos : Nat) (location src dest : OperandId) : Attempt State State := do
  let (stored, func) := s.func.newCopy src
  let (loaded, func) := func.newCopy src
  let s := { s with func }.replace pos (.fork src stored loaded)
  let func ← Attempt.orStop s (s.func.insert (pos + 1) (.store location stored))
  let func := (func.replace (pos + 2) (.assign dest loaded)).modify dest fun o =>
    { o with loadedFrom := none }
  return { s with func }.count fun stats => { stats with forwarded := stats.forwarded + 1 }

/-- Forwards the value of every store and load from a position on. -/
def forwardFrom : Nat → Nat → State → Attempt State State
  | 0, _, s => .ok s
  | fuel + 1, pos, s =>
    match s.func.storeThenLoad? pos with
    | some (location, src, dest) => do
      forwardFrom fuel (pos + 3) (← s.forwardAt pos location src dest)
    | none => forwardFrom fuel (pos + 1) s

end State

/-- Forwards stored values to the loads that follow them.  Each step comes closer to
the end of the code, a pair by two positions and anything else by one. -/
def forwardStores : Pass := fun s => State.forwardFrom s.func.size 0 s

end StackCompiler.IR
