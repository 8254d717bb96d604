import StackCompiler.Attempt
import StackCompiler.IR.Render

/-!
# Register allocation

A linear scan over the live intervals of variables and temps, in the order of their
starts.  The active operands are those that hold a register, kept in the order of
their ends; an operand whose interval ends at or before the current start gives its
register back.  When the pool is used up, the operand that lives longest goes without
a register: a variable then stays in the array of locals and a temp in its slot of
the frame.

A temp loaded from a variable shares the register of the variable when that one
outlives the temp and is not written in the meantime.
-/

namespace StackCompiler.IR

/-- What an allocation came to. -/
structure Allocation where
  /-- The registers in use, in hardware order. -/
  registers : List Register := []
  spilledVars : Nat := 0
  spilledTemps : Nat := 0
  /-- The number of temps in the register of their variable. -/
  shared : Nat := 0
  deriving DecidableEq, Repr, Inhabited

namespace Operand

/-- The last position that counts for allocation: a value that is never read takes up
its definition only. -/
def lastPosition (o : Operand) : Nat := (o.liveEnd.orElse fun _ => o.liveStart).getD 0

/-- The first position of the interval. -/
def firstPosition (o : Operand) : Nat := o.liveStart.getD 0

end Operand

/-- A linear scan under way. -/
structure LinearScan where
  func : Function
  pool : List Register
  /-- The operands that hold registers of their own, in the order of their ends. -/
  active : List OperandId := []
  /-- The register that each variable had when its interval last ended. -/
  lastRegister : Table OperandId Register := []
  /-- The temps that share the register of each variable. -/
  sharing : Table OperandId (List OperandId) := []
  /-- How many temps share a register. -/
  shared : Nat := 0

namespace LinearScan

/-- The last position of an operand. -/
def endOf (s : LinearScan) (id : OperandId) : Nat := (s.func.operand id).lastPosition

/-- Sets or clears the register of an operand. -/
def assign (s : LinearScan) (id : OperandId) (register : Option Register) : LinearScan :=
  { s with func := s.func.modify id fun o => { o with register } }

/-- The variable for which an operand stands: itself, or the one it was read from. -/
def ownVar? (s : LinearScan) (id : OperandId) : Option OperandId :=
  if s.func.isVar id then some id else (s.func.operand id).loadedFrom

/-- Ends the interval of an operand and remembers the register of its variable. -/
def retire (s : LinearScan) (id : OperandId) : LinearScan :=
  { s with
    lastRegister := match s.ownVar? id, (s.func.operand id).register with
      | some var, some register => s.lastRegister.put var register
      | _, _ => s.lastRegister
    sharing := s.sharing.without id }

/-- Ends the intervals that end at or before a position. -/
def expire (s : LinearScan) (start : Nat) : LinearScan :=
  let ended := s.active.takeWhile fun id => s.endOf id ≤ start
  ended.foldl retire { s with active := s.active.drop ended.length }

/-- Puts an operand among the active ones, after those that do not outlive it. -/
def activate (s : LinearScan) (id : OperandId) : LinearScan :=
  let (before, after) := s.active.span fun other => s.endOf other ≤ s.endOf id
  { s with active := before ++ id :: after }

/-- Whether a variable is stored to after `start` and not after `stop`. -/
def isOverwritten (s : LinearScan) (var : OperandId) (start stop : Nat) : Bool :=
  s.func.isVar var && s.func.live.any fun (pos, inst) =>
    match inst with
    | .store dest _ => dest = var && start < pos && pos ≤ stop
    | _ => false

/-- The variable and its register that an operand may share. -/
def shareable? (s : LinearScan) (id : OperandId) : Option (OperandId × Register) := do
  let o := s.func.operand id
  let var ← o.loadedFrom
  let register ← (s.func.operand var).register
  let start := o.firstPosition
  let stop := o.lastPosition
  guard (s.active.contains var)
  guard (stop ≤ s.endOf var)
  guard (s.func.inst? start = some (.assign id var))
  guard (!s.isOverwritten var start stop)
  return (var, register)

/-- Puts an operand into the register of its variable. -/
def share (s : LinearScan) (id var : OperandId) (register : Register) : LinearScan :=
  let s := s.assign id (some register)
  { s with
    sharing := s.sharing.put var ((s.sharing.at? var).getD [] ++ [id])
    shared := s.shared + 1 }

/-- The registers of the active operands. -/
def inUse (s : LinearScan) : List Register :=
  s.active.filterMap fun id => (s.func.operand id).register

/-- A free register for an operand: the last one of its variable if that is free, and
otherwise the first free one of the pool. -/
def freeRegister (s : LinearScan) (id : OperandId) : Except CompileError Register :=
  let inUse := s.inUse
  match (s.ownVar? id).bind s.lastRegister.at? with
  | some register => if inUse.contains register then fromPool inUse else .ok register
  | none => fromPool inUse
where
  /-- The first register of the pool that is not in use. -/
  fromPool (inUse : List Register) : Except CompileError Register :=
    match s.pool.find? fun register => !inUse.contains register with
    | some register => .ok register
    | none => .error (.registersExhausted
        s!"no free register for {s.func.operandName id} with {s.active.length} of {s.pool.length} active")

/-- Takes the register away from an operand and from those that share it. -/
def evict (s : LinearScan) (victim : OperandId) : LinearScan :=
  let temps := (s.sharing.at? victim).getD []
  let s := temps.foldl (fun s temp => s.assign temp none) (s.assign victim none)
  { s with
    sharing := s.sharing.without victim
    shared := s.shared - temps.length
    active := s.active.dropLast }

/-- Leaves the longest lived one of an operand and the active ones without a register. -/
def spill (s : LinearScan) (id : OperandId) : LinearScan :=
  match s.active.getLast? with
  | some victim =>
    if s.endOf id < s.endOf victim then
      let register := (s.func.operand victim).register
      ((s.evict victim).assign id register).activate id
    else s.assign id none
  | none => s.assign id none

/-- Places one operand. -/
def place (s : LinearScan) (id : OperandId) : Attempt LinearScan LinearScan :=
  let s := s.expire (s.func.operand id).firstPosition
  match s.shareable? id with
  | some (var, register) => .ok (s.share id var register)
  | none =>
    if s.active.length < s.pool.length then do
      let register ← Attempt.orStop s (s.freeRegister id)
      return (s.assign id (some register)).activate id
    else .ok (s.spill id)

end LinearScan

namespace Function

/-- The variables and temps, by number. -/
def values (f : Function) : List OperandId := f.operandIds.filter fun id => f.isTemp id || f.isVar id

/-- Forgets the registers of variables and temps. -/
def clearRegisters (f : Function) : Function :=
  { f with operands := f.operands.map fun o =>
      if o.isTemp || o.isVar then { o with register := none } else o }

/-- Whether one operand is placed before another: the one that starts first, a variable
before a temp, the lower number first. -/
def placedBefore (f : Function) (a b : OperandId) : Bool :=
  let x := f.operand a
  let y := f.operand b
  x.firstPosition < y.firstPosition ||
    (x.firstPosition = y.firstPosition &&
      ((!x.isTemp && y.isTemp) || (x.isTemp = y.isTemp && a ≤ b)))

/-- The variables and temps with a live interval, in the order in which they are placed. -/
def placementOrder (f : Function) : List OperandId :=
  (f.values.filter fun id => (f.operand id).isLive).mergeSort f.placedBefore

/-- What the registers of a function come to. -/
def summarize (f : Function) (shared : Nat) : Allocation :=
  (f.values.filter fun id => (f.operand id).isLive).foldl (fun a id =>
    match (f.operand id).register with
    | some register => { a with registers := register.insertOrdered a.registers }
    | none =>
      if f.isVar id then { a with spilledVars := a.spilledVars + 1 }
      else { a with spilledTemps := a.spilledTemps + 1 }) { shared }

/-- Runs the scan. -/
def scan (f : Function) (pool : List Register) : Attempt LinearScan LinearScan :=
  let f := f.clearRegisters
  f.placementOrder.foldlM LinearScan.place { func := f, pool }

/-- Gives registers of the pool to the variables and temps of a function. -/
def allocate (f : Function) (pool : List Register) :
    Attempt Function (Function × Allocation) :=
  match f.scan pool with
  | .ok s => .ok (s.func, s.func.summarize s.shared)
  | .error stopped => .error ⟨stopped.cause, stopped.state.func⟩

/-- A line on the interval, the place and the types of an operand. -/
def allocationLine (f : Function) (id : OperandId) : String :=
  let o := f.operand id
  let stop := match o.liveEnd with
    | some stop => toString stop
    | none => "-"
  let place := match o.register with
    | some register => register.name
    | none => "memory"
  s!"  {Text.padRight 12 (f.operandName id)} [{o.firstPosition}, {stop}] {place} {o.types.display}\n"

/-- Where each variable and temp with a live interval is kept. -/
def allocationTable (f : Function) : String :=
  "allocation:\n" ++ String.join ((f.values.filter fun id => (f.operand id).isLive).map f.allocationLine)

end Function

end StackCompiler.IR
