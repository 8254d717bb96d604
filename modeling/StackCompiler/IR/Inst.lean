import StackCompiler.IR.Operand

/-!
# Instructions

The instructions of the intermediate representation, over operands by number.
`Inst.defs` and `Inst.uses` say what an instruction writes and reads, `Inst.mapUses`
renames what it reads, and `Inst.target?` gives the label it jumps to.
-/

namespace StackCompiler.IR

/-- A jump target, numbered as in the bytecode. -/
abbrev Label := Nat

/-- The name of a label. -/
def labelName (l : Label) : String := s!"L{l}"

/-- What an assertion demands of a value. -/
inductive AssertKind where
  | int
  | notZero
  | bool
  deriving DecidableEq, Repr

/-- The name of an assertion. -/
def AssertKind.name : AssertKind → String
  | int => "assert_int"
  | notZero => "assert_not_zero"
  | bool => "assert_bool"

/-- A binary operation. -/
inductive BinOp where
  /-- Addition of any two values, by a runtime helper. -/
  | add
  /-- Addition of two integers. -/
  | intAdd
  | sub | mul | div | gt | geq
  /-- Equality of any two values, by a runtime helper. -/
  | eq
  /-- Equality of two integers or two booleans. -/
  | fastEq
  | and | or
  deriving DecidableEq, Repr

namespace BinOp

/-- Every binary operation. -/
def all : List BinOp := [add, intAdd, sub, mul, div, gt, geq, eq, fastEq, and, or]

/-- The name of a binary operation. -/
def name : BinOp → String
  | add => "add"
  | intAdd => "int_add"
  | sub => "sub"
  | mul => "mul"
  | div => "div"
  | gt => "gt"
  | geq => "geq"
  | eq => "eq"
  | fastEq => "fast_eq"
  | and => "and"
  | or => "or"

/-- What is known of the result whatever the operands are. -/
def resultTypes : BinOp → TypeSet
  | add => .empty
  | intAdd | sub | mul | div => .ints
  | gt | geq | eq | fastEq | and | or => .bools

/-- What both operands must be; the operations by helpers take any two values. -/
def demands? : BinOp → Option AssertKind
  | add | eq | intAdd | fastEq => none
  | sub | mul | div | gt | geq => some .int
  | and | or => some .bool

end BinOp

/-- A unary operation. -/
inductive UnOp where
  | neg
  | not
  deriving DecidableEq, Repr

namespace UnOp

/-- Every unary operation. -/
def all : List UnOp := [neg, not]

/-- The name of a unary operation. -/
def name : UnOp → String
  | neg => "neg"
  | not => "not"

/-- What is known of the result whatever the operand is. -/
def resultTypes : UnOp → TypeSet
  | neg => .ints
  | not => .bools

/-- What the operand must be. -/
def demands : UnOp → AssertKind
  | neg => .int
  | not => .bool

end UnOp

/-- A request to the runtime.  A load or an allocation leaves its result in the
return location. -/
inductive HelperCall where
  | collect
  | allocRecord
  | fieldLoad (field : Nat) (record : OperandId)
  | fieldStore (field : Nat) (record value : OperandId)
  | indexLoad (record index : OperandId)
  | indexStore (record index value : OperandId)
  | throwUninitialized (name : Nat)
  deriving DecidableEq, Repr

namespace HelperCall

/-- The operands that a request reads. -/
def uses : HelperCall → List OperandId
  | fieldLoad _ record => [record]
  | fieldStore _ record value => [record, value]
  | indexLoad record index => [record, index]
  | indexStore record index value => [record, index, value]
  | collect | allocRecord | throwUninitialized _ => []

/-- Renames the operands that a request reads. -/
def mapUses (r : OperandId → OperandId) : HelperCall → HelperCall
  | fieldLoad field record => fieldLoad field (r record)
  | fieldStore field record value => fieldStore field (r record) (r value)
  | indexLoad record index => indexLoad (r record) (r index)
  | indexStore record index value => indexStore (r record) (r index) (r value)
  | collect => collect
  | allocRecord => allocRecord
  | throwUninitialized name => throwUninitialized name

end HelperCall

/-- An instruction. -/
inductive Inst where
  /-- Fills a temp from any operand. -/
  | assign (dest src : OperandId)
  /-- Writes a temp into a variable, a global or a closure cell. -/
  | store (dest src : OperandId)
  /-- Fills a variable's register from the array of locals. -/
  | forceLoad (var : OperandId)
  | binary (op : BinOp) (dest lhs rhs : OperandId)
  | unary (op : UnOp) (dest src : OperandId)
  /-- Calls a closure; the result is in the return location. -/
  | call (closure : OperandId) (args : List OperandId)
  /-- Makes a closure; the result is in the return location. -/
  | allocClosure (function : OperandId) (refs : List OperandId)
  | ret (value : OperandId)
  | label (l : Label)
  | jump (l : Label)
  /-- A jump with the short machine encoding. -/
  | shortJump (l : Label)
  /-- Jumps when the condition is `true`. -/
  | condJump (cond : OperandId) (l : Label)
  | helper (request : HelperCall)
  | assertion (kind : AssertKind) (arg : OperandId)
  /-- Copies one value into two temps. -/
  | fork (src dest1 dest2 : OperandId)
  deriving DecidableEq, Repr, Inhabited

namespace Inst

/-- The operands that an instruction defines. -/
def defs : Inst → List OperandId
  | assign dest _ | binary _ dest _ _ | unary _ dest _ => [dest]
  | fork _ dest1 dest2 => [dest1, dest2]
  | _ => []

/-- The operands that an instruction reads. -/
def uses : Inst → List OperandId
  | assign _ src | store _ src | unary _ _ src | fork src _ _ => [src]
  | binary _ _ lhs rhs => [lhs, rhs]
  | call closure args => closure :: args
  | allocClosure function refs => function :: refs
  | ret value => [value]
  | condJump cond _ => [cond]
  | assertion _ arg => [arg]
  | helper request => request.uses
  | forceLoad _ | label _ | jump _ | shortJump _ => []

/-- Renames the operands that an instruction reads. -/
def mapUses (r : OperandId → OperandId) : Inst → Inst
  | assign dest src => assign dest (r src)
  | store dest src => store dest (r src)
  | unary op dest src => unary op dest (r src)
  | fork src dest1 dest2 => fork (r src) dest1 dest2
  | binary op dest lhs rhs => binary op dest (r lhs) (r rhs)
  | call closure args => call (r closure) (args.map r)
  | allocClosure function refs => allocClosure (r function) (refs.map r)
  | ret value => ret (r value)
  | condJump cond l => condJump (r cond) l
  | assertion kind arg => assertion kind (r arg)
  | helper request => helper (request.mapUses r)
  | forceLoad var => forceLoad var
  | label l => label l
  | jump l => jump l
  | shortJump l => shortJump l

/-- The label that a jump goes to. -/
def target? : Inst → Option Label
  | jump l | shortJump l | condJump _ l => some l
  | _ => none

/-- The label that an instruction marks. -/
def label? : Inst → Option Label
  | label l => some l
  | _ => none

/-- Whether an instruction does nothing but fill what it defines. -/
def isPure : Inst → Bool
  | assign _ _ | binary _ _ _ _ | unary _ _ _ | fork _ _ _ => true
  | _ => false

end Inst

end StackCompiler.IR
