import StackCompiler.IR.Pass.Sweep

/-!
# Dead temps

A temp that is never read is removed, and reads of a temp that is a copy of another
become reads of the other.  Removing a definition can leave what it read unread, so
the pass repeats until nothing is left to remove.
-/

namespace StackCompiler.IR

/-- A state and the temps that are copies, each with the temp it copies. -/
structure CopyScan where
  state : State
  copies : Table OperandId OperandId := []

namespace CopyScan

/-- The operand to read in place of another. -/
def source (scan : CopyScan) (id : OperandId) : OperandId := (scan.copies.at? id).getD id

/-- Takes in one instruction: it reads the sources of copies, and when it copies a temp
into a temp, that one becomes obsolete. -/
def visit (scan : CopyScan) (entry : Nat × Inst) : CopyScan :=
  let (pos, inst) := entry
  let inst := inst.mapUses scan.source
  let s := scan.state.replace pos inst
  match inst with
  | .assign dest src =>
    if s.func.isTemp dest && s.func.isTemp src && !s.isObsolete dest then
      ⟨s.mark dest, scan.copies.put dest src⟩
    else { scan with state := s }
  | _ => { scan with state := s }

end CopyScan

namespace State

/-- Marks the temps that are never read. -/
def markDead (s : State) : State :=
  s.markAll (s.func.temps.filter fun id => (s.func.operand id).isDead)

/-- Reads the source of each copied temp in its place. -/
def forwardCopies (s : State) : State :=
  (s.func.live.foldl CopyScan.visit { state := s }).state

/-- Removes dead temps and copies as long as there are any. -/
def removeTemps : Nat → State → Attempt State State
  | 0, s => .ok s
  | fuel + 1, s => do
    let s ← s.analyze Function.intervals
    let s := s.markDead.forwardCopies
    if s.ctx.obsolete.isEmpty then return s else removeTemps fuel s.sweep.compact

end State

/-- Removes temps that are never read or only copied.  Every repetition but the first
and the last removes an instruction or turns a fork into an assignment. -/
def deadTemps : Pass := fun s => State.removeTemps (2 * s.func.size + 2) s

end StackCompiler.IR
