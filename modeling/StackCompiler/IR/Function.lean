import StackCompiler.IR.Inst
import StackCompiler.Table

/-!
# Functions

A function of the intermediate representation: a table of operands and a sequence of
instructions.  Instructions are removed in two steps, so that positions stay valid
while a pass runs: `remove` marks a position and `compact` drops the marked ones.
The label table gives the position of each label; `push`, `insert` and `compact` keep
it up to date.
-/

namespace StackCompiler.IR

open Bytecode (Constant)

/-- A function of the intermediate representation. -/
structure Function where
  name : String
  parameterCount : Nat := 0
  varNames : List String := []
  globalNames : List String := []
  refNames : List String := []
  operands : Array Operand := #[]
  code : Array Inst := #[]
  /-- The positions marked for removal. -/
  pending : IdSet := []
  labels : Table Label Nat := []
  deriving Inhabited

namespace Function

/-! ### Operands -/

/-- The operand with the given number. -/
def operand (f : Function) (id : OperandId) : Operand := f.operands.getD id default

/-- Whether an operand is a temp. -/
def isTemp (f : Function) (id : OperandId) : Bool := (f.operand id).isTemp

/-- Whether an operand is a variable. -/
def isVar (f : Function) (id : OperandId) : Bool := (f.operand id).isVar

/-- Changes what is known about an operand. -/
def modify (f : Function) (id : OperandId) (change : Operand → Operand) : Function :=
  { f with operands := f.operands.modify id change }

/-- Every operand number. -/
def operandIds (f : Function) : List OperandId := List.range f.operands.size

/-- The temps, in the order of their numbers. -/
def temps (f : Function) : List OperandId := f.operandIds.filter f.isTemp

/-- How many temps there are. -/
def tempCount (f : Function) : Nat := f.operands.countP (·.isTemp)

/-- Adds an operand. -/
def addOperand (f : Function) (o : Operand) : OperandId × Function :=
  (f.operands.size, { f with operands := f.operands.push o })

/-- Adds a temp. -/
def newTemp (f : Function) : OperandId × Function := f.addOperand (.ofKind (.temp f.tempCount))

/-- Adds a literal. -/
def newConstant (f : Function) (c : Constant) : OperandId × Function :=
  f.addOperand (.ofKind (.const c))

/-- The operand of a kind, if there is one. -/
def find? (f : Function) (kind : OperandKind) : Option OperandId :=
  f.operands.findIdx? (·.kind = kind)

/-- The operand of a local variable, made on first use.  A parameter may have any
type, since its value comes from callers. -/
def var (f : Function) (n : Nat) : OperandId × Function :=
  match f.find? (.var n) with
  | some id => (id, f)
  | none =>
    let o := Operand.ofKind (.var n)
    f.addOperand (if n < f.parameterCount then { o with types := .any } else o)

/-- The operand of a location, made on first use. -/
def location (f : Function) (kind : OperandKind) :
    Except CompileError (OperandId × Function) :=
  if kind.isLocation then
    match f.find? kind with
    | some id => .ok (id, f)
    | none => .ok (f.addOperand (.ofKind kind))
  else .error (.unexpectedOperand kind.describe "location lookup")

/-- Adds types to what is known about an operand. -/
def addTypes (f : Function) (id : OperandId) (types : TypeSet) : Function :=
  f.modify id fun o => { o with types := o.types.union types }

/-! ### Instructions -/

/-- The number of positions, those marked for removal included. -/
def size (f : Function) : Nat := f.code.size

/-- The instruction at a position. -/
def inst? (f : Function) (pos : Nat) : Option Inst := f.code[pos]?

/-- Whether a position is marked for removal. -/
def isRemoved (f : Function) (pos : Nat) : Bool := f.pending.contains pos

/-- The instructions that are not marked for removal, with their positions. -/
def live (f : Function) : List (Nat × Inst) :=
  f.code.toList.zipIdx.filterMap fun (inst, pos) =>
    if f.isRemoved pos then none else some (pos, inst)

/-- The label table of a sequence of instructions: a label that occurs twice has its
last position. -/
def labelsOf (code : List Inst) : Table Label Nat :=
  code.zipIdx.foldl (fun labels (inst, pos) =>
    match inst.label? with
    | some l => labels.put l pos
    | none => labels) []

/-- The function with its label table made anew. -/
def reindex (f : Function) : Function := { f with labels := labelsOf f.code.toList }

/-- Adds an instruction at the end. -/
def push (f : Function) (inst : Inst) : Function :=
  { f with
    code := f.code.push inst
    labels := match inst.label? with
      | some l => f.labels.put l f.code.size
      | none => f.labels }

/-- Puts an instruction in the place of the one at a position. -/
def replace (f : Function) (pos : Nat) (inst : Inst) : Function :=
  { f with code := f.code.setIfInBounds pos inst }

/-- Marks a position for removal. -/
def remove (f : Function) (pos : Nat) : Function := { f with pending := IdSet.add pos f.pending }

/-- Puts an instruction before the one at a position.  Refused while positions are
marked for removal, since it would move them. -/
def insert (f : Function) (pos : Nat) (inst : Inst) : Except CompileError Function :=
  if f.pending.isEmpty then
    .ok (reindex { f with code := (f.code.toList.insertIdx pos inst).toArray })
  else .error (.invalidOperation "instruction inserted while deletions are pending")

/-- Drops the positions marked for removal; tells how many were marked. -/
def compact (f : Function) : Nat × Function :=
  if f.pending.isEmpty then (0, f)
  else (f.pending.length,
    reindex { f with code := (f.live.map (·.2)).toArray, pending := [] })

/-- The position of a label. -/
def labelPosition (f : Function) (l : Label) : Except CompileError Nat :=
  match f.labels.at? l with
  | some pos => .ok pos
  | none => .error (.unknownLabel l)

end Function

end StackCompiler.IR
