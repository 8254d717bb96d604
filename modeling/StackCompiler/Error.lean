import StackCompiler.Json.Writer

/-!
# Compilation errors

One type of causes for every phase.  A cause has a class (`CompileError.errorClass`), a
stable code (`CompileError.code`) and a message (`CompileError.message`), and a
diagnostic that holds the three for machines to read.
-/

namespace StackCompiler

/-- Whom an error concerns: the compiler itself, the author of the program, or
whoever supplied the input. -/
inductive ErrorClass where
  | internal
  | user
  | input
  deriving DecidableEq, Repr

/-- The name of an error class in diagnostics. -/
def ErrorClass.name : ErrorClass → String
  | internal => "internal"
  | user => "user"
  | input => "input"

/-- Why a compilation stopped. -/
inductive CompileError where
  | invalidOperation (message : String)
  | stackUnderflow (index : Nat) (opcode : String)
  | badIndex (table : String) (index : Int)
  | unknownLabel (label : Nat)
  | registersExhausted (message : String)
  | tooManyArguments (count max : Nat)
  | unexpectedOperand (operand context : String)
  | jumpOutOfRange (label : String) (width : Nat)
  | illegalCast (message : String)
  | illegalArithmetic (message : String)
  /-- The text matches the grammar, and what it says at a place is refused. -/
  | refusedText (line column : Nat) (message : String)
  /-- The text does not match the grammar. -/
  | unreadableText
  | badJson (message : String)
  | badFunctionPath (path : List Nat)
  | invalidOption (message : String)
  deriving DecidableEq, Repr

namespace CompileError

/-- The class of an error. -/
def errorClass : CompileError → ErrorClass
  | invalidOperation _ | stackUnderflow _ _ | badIndex _ _ | unknownLabel _
  | registersExhausted _ | tooManyArguments _ _ | unexpectedOperand _ _
  | jumpOutOfRange _ _ => .internal
  | illegalCast _ | illegalArithmetic _ => .user
  | refusedText _ _ _ | unreadableText | badJson _ | badFunctionPath _ | invalidOption _ => .input

/-- The stable code of an error. -/
def code : CompileError → String
  | refusedText _ _ _ | unreadableText => "E001"
  | badJson _ => "E002"
  | badFunctionPath _ => "E003"
  | invalidOption _ => "E004"
  | invalidOperation _ => "E100"
  | stackUnderflow _ _ => "E101"
  | badIndex _ _ => "E102"
  | unknownLabel _ => "E103"
  | registersExhausted _ => "E200"
  | tooManyArguments _ _ => "E201"
  | unexpectedOperand _ _ => "E202"
  | jumpOutOfRange _ _ => "E203"
  | illegalCast _ => "E300"
  | illegalArithmetic _ => "E301"

/-- The message of an error. -/
def message : CompileError → String
  | invalidOperation message => s!"invalid operation: {message}"
  | stackUnderflow index opcode =>
    s!"operand stack underflow at bytecode instruction {index} ({opcode})"
  | badIndex table index => s!"{table} index {index} out of range"
  | unknownLabel label => s!"jump to undefined label {label}"
  | registersExhausted message => s!"registers exhausted: {message}"
  | tooManyArguments count max =>
    s!"helper call takes {count} arguments, at most {max} fit in registers"
  | unexpectedOperand operand context => s!"unexpected operand {operand} in {context}"
  | jumpOutOfRange label width => s!"jump to {label} does not fit a {width}-bit displacement"
  | illegalCast message => s!"illegal cast: {message}"
  | illegalArithmetic message => s!"illegal arithmetic: {message}"
  | refusedText line column message => s!"parse error at {line}:{column}: {message}"
  | unreadableText => "parse error: the text is not a bytecode function"
  | badJson message => s!"invalid JSON bytecode: {message}"
  | badFunctionPath path =>
    let indices := ", ".intercalate (path.map toString)
    s!"function path [{indices}] does not name a nested function"
  | invalidOption message => s!"invalid option: {message}"

/-- Whether an error is a defect of the compiler. -/
def isInternal (e : CompileError) : Bool := e.errorClass = .internal

/-- The machine-readable form of an error. -/
def diagnostic (e : CompileError) : String :=
  Json.line (.record [
    ("code", .ofString e.code),
    ("kind", .ofString e.errorClass.name),
    ("message", .ofString e.message)])

end CompileError

end StackCompiler
