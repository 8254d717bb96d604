import StackCompiler.IR.Function

/-!
# The text of functions

The names of operands and the lines of a function as they are shown: one instruction
to a line, after its position.
-/

namespace StackCompiler.IR

namespace Function

/-- The name at a slot, or the fallback and the number of the slot. -/
def slotName (names : List String) (n : Nat) (fallback : String) : String :=
  names.getD n s!"{fallback}{n}"

/-- The name of an operand. -/
def operandName (f : Function) (id : OperandId) : String :=
  match (f.operand id).kind with
  | .temp n => s!"t{n}"
  | .var n => "%" ++ slotName f.varNames n "v"
  | .global n => "@" ++ slotName f.globalNames n "g"
  | .cell n => "&" ++ slotName f.refNames n "r"
  | .contents n => "*" ++ slotName f.refNames n "r"
  | .function n => s!"fn{n}"
  | .const c => "$" ++ c.display
  | .retval => "retval"

/-- The names of operands with commas between them. -/
def operandNames (f : Function) (ids : List OperandId) : String :=
  ", ".intercalate (ids.map f.operandName)

/-- The text of a request to the runtime. -/
def helperText (f : Function) : HelperCall → String
  | .collect => "gc"
  | .allocRecord => "alloc_record"
  | .fieldLoad field record => s!"field_load {f.operandName record}.{field}"
  | .fieldStore field record value =>
    s!"field_store {f.operandName record}.{field} <- {f.operandName value}"
  | .indexLoad record index => s!"index_load {f.operandName record}[{f.operandName index}]"
  | .indexStore record index value =>
    s!"index_store {f.operandName record}[{f.operandName index}] <- {f.operandName value}"
  | .throwUninitialized name => s!"throw_uninitialized {name}"

/-- The text of an instruction. -/
def instText (f : Function) : Inst → String
  | .assign dest src => s!"{f.operandName dest} = {f.operandName src}"
  | .store dest src => s!"{f.operandName dest} <- {f.operandName src}"
  | .forceLoad var => s!"force_load {f.operandName var}"
  | .binary op dest lhs rhs =>
    s!"{f.operandName dest} = {op.name} {f.operandName lhs}, {f.operandName rhs}"
  | .unary op dest src => s!"{f.operandName dest} = {op.name} {f.operandName src}"
  | .call closure args => s!"call {f.operandName closure}({f.operandNames args})"
  | .allocClosure function refs =>
    s!"alloc_closure {f.operandName function} [{f.operandNames refs}]"
  | .ret value => s!"return {f.operandName value}"
  | .label l => s!"{labelName l}:"
  | .jump l => s!"jump {labelName l}"
  | .shortJump l => s!"jump.s {labelName l}"
  | .condJump cond l => s!"if {f.operandName cond} jump {labelName l}"
  | .helper request => f.helperText request
  | .assertion kind arg => s!"{kind.name} {f.operandName arg}"
  | .fork src dest1 dest2 =>
    s!"{f.operandName dest1}, {f.operandName dest2} = fork {f.operandName src}"

/-- The text of a function. -/
def render (f : Function) : String :=
  let header := s!"function {f.name} ({f.parameterCount} params)\n"
  let lines := f.live.map fun (pos, inst) =>
    Text.padLeft 4 (toString pos) ++ "  " ++ f.instText inst ++ "\n"
  header ++ String.join lines

end Function

end StackCompiler.IR
