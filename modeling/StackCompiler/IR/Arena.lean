import StackCompiler.IR.Function

/-!
# The arena of instructions

How the instructions of a function are stored while its code is changed.  An instruction
that is added goes to the end of the arena and stays there.  A handle of 32 bits stands
for it, and program order is a list of handles.  Replacing the instruction at a position
writes through its handle, and deleting it drops the handle, in two steps as in
`Function`: `remove` marks a position and `compact` drops the marked ones.

`view` puts the code of an arena into a function, and `ofFunction` stores the code of a
function.  There are as many handles as numbers of 32 bits; once they are used up, they
are given out again from the first one on.
-/

namespace StackCompiler.IR

/-- The handle of an instruction in an arena. -/
structure InstId where
  number : UInt32
  deriving DecidableEq, Repr

namespace InstId

/-- The place in the arena that a handle stands for. -/
def index (id : InstId) : Nat := id.number.toNat

/-- The handle of a place in the arena, of which it keeps the lowest 32 bits. -/
def ofIndex (index : Nat) : InstId := ⟨UInt32.ofNat index⟩

end InstId

/-- Instructions, their order, and what is known about their positions. -/
structure Arena where
  insts : Array Inst := #[]
  order : Array InstId := #[]
  /-- The positions marked for removal. -/
  pending : IdSet := []
  labels : Table Label Nat := []
  deriving Inhabited

namespace Arena

/-- The number of positions, those marked for removal included. -/
def size (a : Arena) : Nat := a.order.size

/-- The instruction at a position: what its handle stands for. -/
def inst? (a : Arena) (pos : Nat) : Option Inst :=
  a.order[pos]?.bind fun id => a.insts[id.index]?

/-- Whether a position is marked for removal. -/
def isRemoved (a : Arena) (pos : Nat) : Bool := a.pending.contains pos

/-- The instructions that are not marked for removal, with their positions. -/
def live (a : Arena) : List (Nat × Inst) :=
  (List.range a.size).filterMap fun pos =>
    if a.isRemoved pos then none else (a.inst? pos).map fun inst => (pos, inst)

/-- The arena with its label table made anew, from the first position to the last. -/
def reindex (a : Arena) : Arena :=
  { a with
    labels := (List.range a.size).foldl (fun labels pos =>
      match (a.inst? pos).bind Inst.label? with
      | some l => labels.put l pos
      | none => labels) [] }

/-- The handle that the next instruction gets. -/
def nextId (a : Arena) : InstId := .ofIndex a.insts.size

/-- Adds an instruction at the end. -/
def push (a : Arena) (inst : Inst) : Arena :=
  { a with
    insts := a.insts.push inst
    order := a.order.push a.nextId
    labels := match inst.label? with
      | some l => a.labels.put l a.size
      | none => a.labels }

/-- Writes an instruction through the handle at a position. -/
def replace (a : Arena) (pos : Nat) (inst : Inst) : Arena :=
  match a.order[pos]? with
  | some id => { a with insts := a.insts.setIfInBounds id.index inst }
  | none => a

/-- Marks a position for removal. -/
def remove (a : Arena) (pos : Nat) : Arena := { a with pending := IdSet.add pos a.pending }

/-- Adds an instruction, with its handle before the one at a position. -/
def place (a : Arena) (pos : Nat) (inst : Inst) : Arena :=
  { a with
    insts := a.insts.push inst
    order := (a.order.toList.insertIdx pos a.nextId).toArray }

/-- Puts an instruction before the one at a position.  Refused while positions are
marked for removal, since it would move them. -/
def insert (a : Arena) (pos : Nat) (inst : Inst) : Except CompileError Arena :=
  if a.pending.isEmpty then .ok (a.place pos inst).reindex
  else .error (.invalidOperation "instruction inserted while deletions are pending")

/-- Keeps the handles at the positions that are not marked for removal. -/
def sweep (a : Arena) : Arena :=
  { a with
    order := ((a.order.toList.zipIdx.filter fun p => !a.isRemoved p.2).map (·.1)).toArray
    pending := [] }

/-- Drops the positions marked for removal; tells how many were marked. -/
def compact (a : Arena) : Nat × Arena :=
  if a.pending.isEmpty then (0, a) else (a.pending.length, a.sweep.reindex)

/-- The position of a label. -/
def labelPosition (a : Arena) (l : Label) : Except CompileError Nat :=
  match a.labels.at? l with
  | some pos => .ok pos
  | none => .error (.unknownLabel l)

/-! ### Functions and their arenas -/

/-- The arena in which the code of a function is stored in its order. -/
def ofFunction (f : Function) : Arena where
  insts := f.code
  order := (Array.range f.code.size).map .ofIndex
  pending := f.pending
  labels := f.labels

/-- The instructions in program order. -/
def code (a : Arena) : Array Inst := a.order.map fun id => a.insts.getD id.index default

/-- A function with the code of an arena. -/
def view (a : Arena) (f : Function) : Function :=
  { f with code := a.code, pending := a.pending, labels := a.labels }

end Arena

end StackCompiler.IR
