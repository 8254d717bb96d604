import StackCompiler.IR.Render
import StackCompiler.Machine.Frame
import StackCompiler.Machine.Linking
import StackCompiler.Word

/-!
# Code generation

`generate` gives the machine code of a function whose operands have been given
registers.  Values go through `rax`, with `rcx` and `rdx` for second operands; an
operand with a register is read and written there, a temp without one in its slot of
the frame, and a variable without one in the array of locals.  A compiled function
takes the closure, the array of locals and the array of closure cells, and returns a
value in `rax`.
-/

namespace StackCompiler.Machine

open Bytecode (Constant)
open IR (Inst OperandId)
open Register (rax rcx rdx rsp rbp rdi rsi)

/-- Code, or the reason why there is none. -/
abbrev Emit := Except CompileError (List Fragment)

/-- An argument of a helper. -/
inductive Argument where
  /-- The value of an operand. -/
  | value (id : OperandId)
  /-- What is in `rax`. -/
  | result
  | immediate (n : UInt64)
  | closure
  /-- The base of the frame. -/
  | frame
  /-- A closure cell. -/
  | cell (n : Nat)
  /-- The values pushed for this call. -/
  | stack
  deriving DecidableEq, Repr

/-! ### Pieces of code -/

/-- Instructions as code. -/
def codes (insts : List Instruction) : List Fragment := insts.map Fragment.code

/-- Copies a register into another one; nothing to do if it is the same. -/
def moveTo (dst src : Register) : List Fragment := if dst = src then [] else codes [.mov dst src]

/-- Reads a slot of the frame. -/
def loadSlot (dst : Register) (slot : Int32) : Instruction := .load dst rbp slot

/-- Writes a slot of the frame. -/
def storeSlot (slot : Int32) (src : Register) : Instruction := .store rbp slot src

/-- Where the `n`-th entry of an array is. -/
def entryOffset (n : Nat) : Int32 := Int32.ofNat (8 * n)

/-- Reads an entry of an array whose address is in the frame. -/
def loadEntry (dst : Register) (slot : Int32) (n : Nat) : List Fragment :=
  codes [loadSlot dst slot, .load dst dst (entryOffset n)]

/-- Loads a literal. -/
def loadConstant (dst : Register) : Constant → List Fragment
  | .none => codes [.setTo dst Word.noneWord]
  | .boolean b => codes [.setTo dst (Word.ofBool b)]
  | .integer n => codes [.setTo dst (Word.ofInt (Word.wrap n))]
  | .string s => [.stringAddress dst s]

/-- Enters a function: makes the frame, keeps the parameters in it, and saves registers. -/
def entryCode (frameSize : Int32) : List Fragment :=
  codes ([.push rbp, .mov rbp rsp, .binaryImm .sub rsp frameSize,
    storeSlot Frame.closure rdi, storeSlot Frame.locals rsi, storeSlot Frame.cells rdx]
    ++ Register.saved.map .push)

/-- Leaves a function. -/
def exitCode : List Fragment :=
  codes (Register.saved.reverse.map .pop ++ [.leave, .ret])

/-! ### Operands -/

section

variable (f : IR.Function)

/-- The refusal of an operand. -/
def refuseOperand (id : OperandId) (context : String) : Emit :=
  .error (.unexpectedOperand (f.operandName id) context)

/-- Loads a value that takes no helper into a register. -/
def loadOperand (dst : Register) (id : OperandId) : Emit :=
  let o := f.operand id
  match o.kind, o.register with
  | .temp _, some register | .var _, some register => .ok (moveTo dst register)
  | .temp n, none => .ok (codes [loadSlot dst (Frame.temp n)])
  | .var n, none => .ok (loadEntry dst Frame.locals n)
  | .cell n, _ => .ok (loadEntry dst Frame.cells n)
  | .const c, _ => .ok (loadConstant dst c)
  | .retval, _ => .ok (moveTo dst rax)
  | .global _, _ | .contents _, _ | .function _, _ => refuseOperand f id "register load"

/-- The registers to save around a helper call at a position: those that a helper may
overwrite and that hold values needed before and after it. -/
def savedAcross (pos : Nat) : List Register :=
  f.operands.toList.foldl (fun saved o =>
    match o.register, o.liveStart, o.liveEnd with
    | some register, some start, some stop =>
      if start < pos && pos < stop && register.isCallerSaved then
        register.insertOrdered saved
      else saved
    | _, _, _ => saved) []

/-- Loads an argument into its register. -/
def loadArgument (dst : Register) : Argument → Emit
  | .value id => loadOperand f dst id
  | .result => .ok (moveTo dst rax)
  | .immediate n => .ok (codes [.setTo dst n])
  | .closure => .ok (codes [loadSlot dst Frame.closure])
  | .frame => .ok (moveTo dst rbp)
  | .cell n => .ok (loadEntry dst Frame.cells n)
  | .stack => .ok (moveTo dst rsp)

/-- Arguments with their registers.  What is in `rax` goes last, since loading the
others leaves it alone. -/
def placeArguments (args : List Argument) : List (Argument × Register) :=
  let placed := args.zip Register.arguments
  placed.filter (·.1 ≠ .result) ++ placed.filter (·.1 = .result)

/-- Emits code for each element in order. -/
def emitAll {α : Type} (emit : α → Emit) (xs : List α) : Emit := do
  return (← xs.mapM emit).flatten

/-- Pushes a value. -/
def pushOperand (id : OperandId) : Emit := do
  return (← loadOperand f rcx id) ++ codes [.push rcx]

/-- Calls a helper at a position, with values on the stack, the first one lowest.  The
result is in `rax`. -/
def callHelper (pos : Nat) (helper : Helper) (args : List Argument)
    (stack : List OperandId := []) : Emit :=
  if Register.arguments.length < args.length then
    .error (.tooManyArguments args.length Register.arguments.length)
  else do
    let saved := savedAcross f pos
    let padding := (saved.length + stack.length) % 2
    let pushed ← emitAll (pushOperand f) stack.reverse
    let loaded ← emitAll (fun (arg, dst) => loadArgument f dst arg) (placeArguments args)
    let cleanup := 8 * (stack.length + padding)
    return codes (saved.map .push)
      ++ (if padding = 1 then codes [.binaryImm .sub rsp 8] else [])
      ++ pushed ++ loaded
      ++ [.helperAddress rax helper, .code (.call rax)]
      ++ (if 0 < cleanup then codes [.binaryImm .add rsp (Int32.ofNat cleanup)] else [])
      ++ codes (saved.reverse.map .pop)

/-- Reads any operand into `rax`. -/
def readOperand (pos : Nat) (id : OperandId) : Emit :=
  match (f.operand id).kind with
  | .global n => callHelper f pos .readGlobal [.closure, .immediate (UInt64.ofNat n)]
  | .contents n => callHelper f pos .readReference [.cell n]
  | .function n => callHelper f pos .readFunction [.closure, .immediate (UInt64.ofNat n)]
  | _ => loadOperand f rax id

/-- Writes `rax` into a temp, a variable, a global or a closure cell. -/
def writeOperand (pos : Nat) (id : OperandId) : Emit :=
  let o := f.operand id
  match o.kind, o.register with
  | .temp _, some register | .var _, some register => .ok (moveTo register rax)
  | .temp n, none => .ok (codes [storeSlot (Frame.temp n) rax])
  | .var n, none => .ok (codes [loadSlot rcx Frame.locals, .store rcx (entryOffset n) rax])
  | .global n, _ =>
    callHelper f pos .writeGlobal [.closure, .immediate (UInt64.ofNat n), .result]
  | .contents n, _ => callHelper f pos .writeReference [.cell n, .result]
  | _, _ => refuseOperand f id "store destination"

/-! ### Instructions -/

/-- Compares `rax` with `rcx` and puts the word of the truth of a condition into `rax`. -/
def compareCode (cond : Condition) : List Instruction :=
  [.binary .cmp rax rcx, .setTo rax Word.falseWord, .setTo rdx Word.trueWord, .cmov cond rax rdx]

/-- The code of an operation on the words in `rax` and `rcx`; none for those that call
a helper. -/
def inlineCode? : IR.BinOp → Option (List Instruction)
  | .add | .eq => none
  | .intAdd => some [.binary .add rax rcx]
  | .sub => some [.binary .sub rax rcx]
  | .mul => some [.shift .sar rax 3, .imul rax rcx]
  | .div => some [.cqo, .idiv rcx, .shift .shl rax 3]
  | .gt => some (compareCode .greater)
  | .geq => some (compareCode .greaterEqual)
  | .fastEq => some (compareCode .equal)
  | .and => some [.binary .and rax rcx]
  | .or => some [.binary .or rax rcx]

/-- The helper of an operation without inline code. -/
def binaryHelper : IR.BinOp → Helper
  | .eq => .equals
  | _ => .add

/-- Computes a binary operation into `rax`. -/
def binaryCode (pos : Nat) (op : IR.BinOp) (lhs rhs : OperandId) : Emit :=
  match inlineCode? op with
  | some insts => do
    return (← loadOperand f rcx rhs) ++ (← loadOperand f rax lhs) ++ codes insts
  | none => callHelper f pos (binaryHelper op) [.value lhs, .value rhs]

/-- The code of a unary operation on the word in `rax`. -/
def unaryCode : IR.UnOp → Instruction
  | .neg => .neg rax
  | .not => .binaryImm .xor rax (Int32.ofNat Word.truthBit.toNat)

/-- The helper of an assertion. -/
def assertHelper : IR.AssertKind → Helper
  | .int => .assertInt
  | .notZero => .assertNotZero
  | .bool => .assertBool

/-- The code of a request to the runtime. -/
def requestCode (pos : Nat) : IR.HelperCall → Emit
  | .collect => callHelper f pos .garbageCollect [.frame]
  | .allocRecord => callHelper f pos .allocRecord []
  | .fieldLoad field record =>
    callHelper f pos .fieldLoad [.closure, .value record, .immediate (UInt64.ofNat field)]
  | .fieldStore field record value =>
    callHelper f pos .fieldStore
      [.closure, .value record, .immediate (UInt64.ofNat field), .value value]
  | .indexLoad record index => callHelper f pos .indexLoad [.value record, .value index]
  | .indexStore record index value =>
    callHelper f pos .indexStore [.value record, .value index, .value value]
  | .throwUninitialized name =>
    callHelper f pos .throwUninitialized [.closure, .immediate (UInt64.ofNat name)]

/-- Whether two operands are in one register. -/
def inSameRegister (a b : OperandId) : Bool :=
  (f.operand a).register.isSome && (f.operand a).register = (f.operand b).register

/-- The code of an instruction at a position. -/
def instCode (pos : Nat) : Inst → Emit
  | .assign dest src =>
    if inSameRegister f dest src then .ok []
    else do return (← readOperand f pos src) ++ (← writeOperand f pos dest)
  | .store dest src => do return (← loadOperand f rax src) ++ (← writeOperand f pos dest)
  | .forceLoad var =>
    match (f.operand var).kind, (f.operand var).register with
    | .var n, some register =>
      .ok (codes [loadSlot rcx Frame.locals, .load register rcx (entryOffset n)])
    | _, _ => .ok []
  | .binary op dest lhs rhs => do
    return (← binaryCode f pos op lhs rhs) ++ (← writeOperand f pos dest)
  | .unary op dest src => do
    return (← loadOperand f rax src) ++ codes [unaryCode op] ++ (← writeOperand f pos dest)
  | .call closure args =>
    callHelper f pos .callFunction
      [.value closure, .stack, .immediate (UInt64.ofNat args.length)] args
  | .allocClosure function refs =>
    callHelper f pos .allocClosure
      [.value function, .stack, .immediate (UInt64.ofNat refs.length)] refs
  | .ret value => do return (← loadOperand f rax value) ++ exitCode
  | .label l => .ok [.item (.label l)]
  | .jump l => .ok [.item (.jump .near l)]
  | .shortJump l => .ok [.item (.jump .short l)]
  | .condJump cond l => do
    return (← loadOperand f rax cond)
      ++ codes [.binaryImm .cmp rax (Int32.ofNat Word.trueWord.toNat)]
      ++ [.item (.jump .equal l)]
  | .helper request => requestCode f pos request
  | .assertion kind arg => callHelper f pos (assertHelper kind) [.value arg]
  | .fork src dest1 dest2 => do
    return (← loadOperand f rax src) ++ (← writeOperand f pos dest1)
      ++ (← writeOperand f pos dest2)

/-- The code of an instruction, after a comment that shows it. -/
def commentedCode (entry : Nat × Inst) : Emit := do
  let (pos, inst) := entry
  return .item (.comment (f.instText inst)) :: (← instCode f pos inst)

/-- Whether the last instruction returns. -/
def endsInReturn : Bool :=
  match f.live.getLast? with
  | some (_, .ret _) => true
  | _ => false

/-- The code of a function.  Running off the end returns the absent value. -/
def functionCode : Emit := do
  let body ← emitAll (commentedCode f) f.live
  return entryCode (Frame.size f.tempCount) ++ body
    ++ (if endsInReturn f then [] else codes [.setTo rax Word.noneWord] ++ exitCode)

end

/-- A compiled function. -/
structure NativeFunction where
  name : String
  code : List UInt8
  listing : List String
  relocations : List Relocation
  /-- The string literals that relocations refer to. -/
  strings : List String
  /-- The bytes that the frame takes below `rbp`. -/
  frameSize : Int32
  deriving DecidableEq, Repr

/-- Generates the code of a function. -/
def generate (f : IR.Function) (helpers : HelperTable) : Except CompileError NativeFunction := do
  let linked := link helpers (← functionCode f)
  let assembled ← assemble linked.items
  return {
    name := f.name
    code := assembled.code
    listing := assembled.listing
    relocations := linked.relocations
    strings := linked.strings
    frameSize := Frame.size f.tempCount }

end StackCompiler.Machine
