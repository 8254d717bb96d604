import StackCompiler.Proofs.Semantics.Transition
import StackCompiler.Proofs.Semantics.World

/-!
# The stack machine

The meaning of bytecode: instructions take their operands from one stack of values and
leave their results there.  `Instruction.effect` gives the stack conventions of every
opcode, and `Function.step` runs one instruction.
-/

namespace StackCompiler.Bytecode

variable {World : Type}

/-- What an instruction does. -/
inductive Effect where
  /-- Goes on with another stack. -/
  | next (stack : List Value)
  /-- Goes on with another stack and a new value for a local variable. -/
  | assign (n : Nat) (v : Value) (stack : List Value)
  /-- Asks the runtime and goes on with the answer on the stack. -/
  | load (request : Request) (stack : List Value)
  /-- Asks the runtime and goes on; there is no answer to keep. -/
  | send (request : Request) (stack : List Value)
  | goto (label : Nat) (stack : List Value)
  | ret (v : Value)
  | fault
  deriving DecidableEq, Repr

/-- The operand of an instruction as a number. -/
def Instruction.argument (i : Instruction) : Nat :=
  match i.operand with
  | some n => n.toInt.toNat
  | none => 0

/-- What an instruction does with the values on the stack, the top one first.  What does
not match any line is a fault: want of values, or a value of the wrong type. -/
def Instruction.effect (f : Function) (rt : Runtime World) (locals : Nat → Value)
    (i : Instruction) (stack : List Value) : Effect :=
  let n := i.argument
  match i.op, stack with
  | .loadConst, st => .next (.ofConstant (f.constants.getD n .none) :: st)
  | .loadFunc, st => .load (.readFunction n) st
  | .loadLocal, st => .next (locals n :: st)
  | .storeLocal, v :: st => .assign n v st
  | .loadGlobal, st => .load (.readGlobal n) st
  | .storeGlobal, v :: st => .send (.writeGlobal n v) st
  | .pushRef, st => .next (rt.cell n :: st)
  | .loadRef, st => .load (.readCell (rt.cell n)) st
  | .storeRef, v :: st => .send (.writeCell (rt.cell n) v) st
  | .allocRecord, st => .load .allocRecord st
  | .fieldLoad, record :: st => .load (.fieldLoad n record) st
  | .fieldStore, v :: record :: st => .send (.fieldStore n record v) st
  | .indexLoad, index :: record :: st => .load (.indexLoad record index) st
  | .indexStore, v :: index :: record :: st => .send (.indexStore record index v) st
  | .allocClosure, function :: st =>
    if n ≤ st.length then .load (.allocClosure function (st.take n)) (st.drop n) else .fault
  | .call, closure :: st =>
    if n ≤ st.length then .load (.call closure (st.take n).reverse) (st.drop n) else .fault
  | .ret, v :: _ => .ret v
  | .add, r :: l :: st => .load (.add l r) st
  | .eq, r :: l :: st => .load (.equals l r) st
  | .sub, .int b :: .int a :: st => .next (.int (a - b) :: st)
  | .mul, .int b :: .int a :: st => .next (.int (a * b) :: st)
  | .div, .int b :: .int a :: st => if b = 0 then .fault else .next (.int (a.sdiv b) :: st)
  | .gt, .int b :: .int a :: st => .next (.bool (b.slt a) :: st)
  | .geq, .int b :: .int a :: st => .next (.bool (b.sle a) :: st)
  | .neg, .int a :: st => .next (.int (-a) :: st)
  | .and, .bool b :: .bool a :: st => .next (.bool (a && b) :: st)
  | .or, .bool b :: .bool a :: st => .next (.bool (a || b) :: st)
  | .not, .bool a :: st => .next (.bool (!a) :: st)
  | .label, st => .next st
  | .goto, st => .goto n st
  | .branch, .bool b :: st => if b then .goto n st else .next st
  | .dup, v :: st => .next (v :: v :: st)
  | .swap, v :: u :: st => .next (u :: v :: st)
  | .pop, _ :: st => .next st
  | .collect, st => .send .collect st
  | .throwUninitialized, st => .send (.throwUninitialized n) st
  | _, _ => .fault

/-- A state of the stack machine. -/
structure Config (World : Type) where
  /-- The number of the next instruction. -/
  index : Nat
  /-- The values on the stack, the top one first. -/
  stack : List Value
  locals : Nat → Value
  world : World
  /-- The requests that were answered, in order. -/
  trace : List Request

/-- The state on entry. -/
def Config.start (locals : Nat → Value) (world : World) : Config World :=
  { index := 0, stack := [], locals, world, trace := [] }

namespace Function

variable (f : Function) (rt : Runtime World)

/-- The index of the instruction that marks a label. -/
def labelIndex (label : Nat) : Option Nat :=
  f.instructions.findIdx? fun i => i.op = .label && i.argument = label

/-- Carries out what an instruction does. -/
def perform (c : Config World) : Effect → Progress (Config World) (Outcome World)
  | .next stack => .running { c with index := c.index + 1, stack }
  | .assign n v stack => .running { c with
      index := c.index + 1
      stack
      locals := fun m => if m = n then v else c.locals m }
  | .load request stack =>
    match rt.serve request c.world with
    | some (v, world) => .running { c with
        index := c.index + 1
        stack := v :: stack
        world
        trace := c.trace ++ [request] }
    | none => .ended (.failed c.index c.world c.trace)
  | .send request stack =>
    match rt.serve request c.world with
    | some (_, world) => .running { c with
        index := c.index + 1
        stack
        world
        trace := c.trace ++ [request] }
    | none => .ended (.failed c.index c.world c.trace)
  | .goto label stack =>
    match f.labelIndex label with
    | some index => .running { c with index, stack }
    | none => .ended (.failed c.index c.world c.trace)
  | .ret v => .ended (.returned v c.world c.trace)
  | .fault => .ended (.failed c.index c.world c.trace)

/-- Runs the next instruction; past the last one the absent value is returned. -/
def step (c : Config World) : Progress (Config World) (Outcome World) :=
  match f.instructions[c.index]? with
  | some i => f.perform rt c (i.effect f rt c.locals c.stack)
  | none => .ended (.returned .none c.world c.trace)

/-- The progress of a function after a number of steps. -/
def run (n : Nat) (c : Config World) : Progress (Config World) (Outcome World) :=
  Progress.run (f.step rt) n c

end Function

end StackCompiler.Bytecode
