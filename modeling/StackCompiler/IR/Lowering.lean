import StackCompiler.IR.Function
import StackCompiler.IR.Operation

/-!
# Lowering

`lower` turns a bytecode function into the intermediate representation by running its
instructions on a stack of operand numbers: a push makes a temp and a pop hands that
temp to the instruction that consumes it.  Operations defined on one type only are
preceded by an assertion for each operand.
-/

namespace StackCompiler.IR

/-- A function being built, and the operands on the stack, the top one first. -/
structure Lowering where
  func : Function
  stack : List OperandId

namespace Lowering

/-- Adds an instruction. -/
def emit (s : Lowering) (inst : Inst) : Lowering := { s with func := s.func.push inst }

/-- Pushes a temp of the given types. -/
def pushTemp (s : Lowering) (types : TypeSet) : OperandId × Lowering :=
  let (temp, func) := s.func.newTemp
  (temp, ⟨func.addTypes temp types, temp :: s.stack⟩)

/-- Pushes a temp filled from an operand. -/
def pushAssign (s : Lowering) (src : OperandId) : OperandId × Lowering :=
  let (dest, s) := s.pushTemp .empty
  (dest, s.emit (.assign dest src))

/-- The operand that a load reads or a store writes. -/
def operandFor (s : Lowering) : OperandKind → Except CompileError (OperandId × Lowering)
  | .const c =>
    let (id, func) := s.func.newConstant c
    .ok (id, { s with func })
  | .var n =>
    let (id, func) := s.func.var n
    .ok (id, { s with func })
  | kind => do
    let (id, func) ← s.func.location kind
    return (id, { s with func })

/-- Pushes a temp filled from the return location. -/
def pushResult (s : Lowering) : Except CompileError Lowering := do
  let (result, s) ← s.operandFor .retval
  return (s.pushAssign result).2

/-- Adds the assertions that a binary operation needs. -/
def guardBinary (s : Lowering) (op : BinOp) (lhs rhs : OperandId) : Lowering :=
  match op.demands? with
  | none => s
  | some kind =>
    let s := (s.emit (.assertion kind lhs)).emit (.assertion kind rhs)
    if op = .div then s.emit (.assertion .notZero rhs) else s

/-- Runs one operation; `underflow` is the error for want of values. -/
def step (underflow : CompileError) (s : Lowering) (operation : Operation) :
    Except CompileError Lowering :=
  match operation, s.stack with
  | .load source, _ => do
    let (src, s) ← s.operandFor source
    let (dest, s) := s.pushAssign src
    match source with
    | .var _ => return { s with func := s.func.modify dest fun o => { o with loadedFrom := some src } }
    | _ => return s
  | .store dest, src :: stack => do
    let (dest, s) ← { s with stack }.operandFor dest
    return s.emit (.store dest src)
  | .allocRecord, _ => (s.emit (.helper .allocRecord)).pushResult
  | .fieldLoad field, record :: stack =>
    ({ s with stack }.emit (.helper (.fieldLoad field record))).pushResult
  | .fieldStore field, value :: record :: stack =>
    .ok ({ s with stack }.emit (.helper (.fieldStore field record value)))
  | .indexLoad, index :: record :: stack =>
    ({ s with stack }.emit (.helper (.indexLoad record index))).pushResult
  | .indexStore, value :: index :: record :: stack =>
    .ok ({ s with stack }.emit (.helper (.indexStore record index value)))
  | .allocClosure n, function :: stack =>
    if n ≤ stack.length then
      ({ s with stack := stack.drop n }.emit (.allocClosure function (stack.take n))).pushResult
    else .error underflow
  | .call n, closure :: stack =>
    if n ≤ stack.length then
      ({ s with stack := stack.drop n }.emit (.call closure (stack.take n).reverse)).pushResult
    else .error underflow
  | .ret, value :: stack => .ok ({ s with stack }.emit (.ret value))
  | .binary op, rhs :: lhs :: stack =>
    let (dest, s) := ({ s with stack }.guardBinary op lhs rhs).pushTemp op.resultTypes
    .ok (s.emit (.binary op dest lhs rhs))
  | .unary op, src :: stack =>
    let (dest, s) := ({ s with stack }.emit (.assertion op.demands src)).pushTemp op.resultTypes
    .ok (s.emit (.unary op dest src))
  | .label l, _ =>
    if (s.func.labels.at? l).isSome then
      .error (.invalidOperation s!"label {l} defined twice")
    else .ok (s.emit (.label l))
  | .goto l, _ => .ok (s.emit (.jump l))
  | .branch l, cond :: stack =>
    .ok (({ s with stack }.emit (.assertion .bool cond)).emit (.condJump cond l))
  | .dup, src :: stack =>
    let (dest1, s) := { s with stack }.pushTemp .empty
    let (dest2, s) := s.pushTemp .empty
    .ok (s.emit (.fork src dest1 dest2))
  | .swap, top :: below :: stack => .ok { s with stack := below :: top :: stack }
  | .pop, _ :: stack => .ok { s with stack }
  | .collect, _ => .ok (s.emit (.helper .collect))
  | .throwUninitialized name, _ => .ok (s.emit (.helper (.throwUninitialized name)))
  | _, _ => .error underflow

/-- Checks and runs the bytecode instruction at `index` of `f`. -/
def stepInstruction (f : Bytecode.Function) (s : Lowering)
    (indexed : Bytecode.Instruction × Nat) : Except CompileError Lowering := do
  let (i, index) := indexed
  let operation ← Operation.ofInstruction f index i
  s.step (.stackUnderflow index i.op.mnemonic) operation

/-- The empty function into which `f` is lowered. -/
def start (f : Bytecode.Function) : Lowering where
  func := {
    name := "function"
    parameterCount := f.parameterCount.toNat
    varNames := f.localVars
    globalNames := f.names
    refNames := f.references }
  stack := []

end Lowering

/-- Refuses a jump to a label that is not defined. -/
def Function.checkTargets (f : Function) : Except CompileError Unit :=
  f.live.forM fun (_, inst) =>
    match inst.target? with
    | some l => (f.labelPosition l).map fun _ => ()
    | none => .ok ()

/-- Lowers a bytecode function. -/
def lower (f : Bytecode.Function) : Except CompileError Function := do
  let s ← f.instructions.zipIdx.foldlM (Lowering.stepInstruction f) (Lowering.start f)
  s.func.checkTargets
  return s.func

end StackCompiler.IR
