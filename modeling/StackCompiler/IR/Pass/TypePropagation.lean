import StackCompiler.IR.Pass.State

/-!
# Type propagation

Each operand gets the least set of types that the instructions allow: starting from
parameters of any type, the sets grow along assignments and operations until none
changes.  What the function does not own, such as globals, cells and results of
calls, may have any type.  The sets found are added to what was known before, and
literals are then copied along assignments into temps.
-/

namespace StackCompiler.IR

/-- The types found so far; an operand without an entry has none. -/
abbrev TypeMap := Table OperandId TypeSet

namespace TypeMap

/-- The types of an operand. -/
def types (m : TypeMap) (id : OperandId) : TypeSet := (m.at? id).getD .empty

/-- Adds types to an operand. -/
def add (m : TypeMap) (id : OperandId) (types : TypeSet) : TypeMap :=
  if (m.types id).contains types then m else m.put id ((m.types id).union types)

end TypeMap

/-- The types of the result of an operation: none while an operand has none, for
addition, which gives an integer or a string. -/
def BinOp.typesFrom (lhs rhs : TypeSet) : BinOp → TypeSet
  | add =>
    if lhs.isEmpty || rhs.isEmpty then .empty
    else if lhs = .ints && rhs = .ints then .ints
    else TypeSet.ints.union .strings
  | op => op.resultTypes

namespace Function

/-- The types that an assignment passes on from its source. -/
def sourceTypes (f : Function) (m : TypeMap) (src : OperandId) : TypeSet :=
  match (f.operand src).kind with
  | .const c => .ofConstant c
  | .temp _ | .var _ => m.types src
  | .function _ | .cell _ => .objects
  | .global _ | .contents _ | .retval => .any

/-- The operands whose types an instruction adds to, and the types that it adds. -/
def transfer (f : Function) (m : TypeMap) : Inst → List (OperandId × TypeSet)
  | .assign dest src => [(dest, f.sourceTypes m src)]
  | .store dest src => if f.isVar dest then [(dest, m.types src)] else []
  | .forceLoad var => [(var, .any)]
  | .fork src dest1 dest2 => [(dest1, m.types src), (dest2, m.types src)]
  | .binary op dest lhs rhs => [(dest, op.typesFrom (m.types lhs) (m.types rhs))]
  | .unary op dest _ => [(dest, op.resultTypes)]
  | _ => []

/-- Takes in one instruction. -/
def inferInst (f : Function) (m : TypeMap) (inst : Inst) : TypeMap :=
  (f.transfer m inst).foldl (fun m (id, types) => m.add id types) m

/-- Takes in every instruction once. -/
def inferRound (f : Function) (m : TypeMap) : TypeMap :=
  (f.live.map (·.2)).foldl f.inferInst m

/-- Repeats rounds until one changes nothing. -/
def inferFrom (f : Function) : Nat → TypeMap → TypeMap
  | 0, m => m
  | fuel + 1, m =>
    let next := f.inferRound m
    if next = m then m else f.inferFrom fuel next

/-- Whether an operand is a parameter. -/
def isParameter (f : Function) (id : OperandId) : Bool :=
  match (f.operand id).kind with
  | .var n => n < f.parameterCount
  | _ => false

/-- The types that are known before any instruction is taken in. -/
def parameterTypes (f : Function) : TypeMap :=
  (f.operandIds.filter f.isParameter).map fun id => (id, TypeSet.any)

/-- The least types that the instructions allow.  An instruction adds to at most two
operands and an operand has at most five types, which bounds the number of rounds. -/
def inferTypes (f : Function) : TypeMap :=
  f.inferFrom (10 * f.live.length + 1) f.parameterTypes

/-- Copies the literal that the source of an assignment equals into a temp without one. -/
def copyConstant (f : Function) (inst : Inst) : Function :=
  match inst with
  | .assign dest src =>
    if f.isTemp dest && (f.operand dest).constant.isNone then
      match (f.operand src).kind with
      | .const _ | .temp _ =>
        f.modify dest fun o => { o with constant := (f.operand src).constant }
      | _ => f
    else f
  | _ => f

end Function

/-- Adds the types and literals that the instructions imply. -/
def propagateTypes : Pass := fun s =>
  let func := s.func.inferTypes.foldl (fun f (id, types) => f.addTypes id types) s.func
  .ok { s with func := (func.live.map (·.2)).foldl Function.copyConstant func }

end StackCompiler.IR
