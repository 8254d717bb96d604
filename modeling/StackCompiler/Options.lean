import StackCompiler.Error
import StackCompiler.Register
import StackCompiler.Json.Reader

/-!
# Compile options

`Options` holds what a compilation may be told.  `Options.ofJson?` reads it from a
document, in which every field may be missing, and `Options.validate` refuses a
register pool larger than the machine's.
-/

namespace StackCompiler

/-- The options of one compilation. -/
structure Options where
  /-- Whether provably illegal operations are errors, instead of being left to the
  assertions at run time. -/
  reportErrors : Bool := false
  /-- Whether the optimization passes run; live intervals and allocation always do. -/
  optimize : Bool := true
  /-- How often the sequence of passes runs. -/
  rounds : UInt64 := 2
  /-- The largest distance, in instructions, at which a jump takes the short form. -/
  shortJumpMax : UInt64 := 1
  /-- The size of the register pool. -/
  registers : UInt64 := 9
  deriving DecidableEq, Repr, Inhabited

namespace Options

/-- The names of the fields in documents, in order. -/
def fieldNames : List String :=
  ["report_compile_errors", "optimize", "fixpoint_iterations", "short_jump_max", "registers"]

/-- The options that a document holds; a missing field takes its default. -/
def ofJson? (document : Json) : Option Options := do
  let (_, values) ← Json.fields? fieldNames Json.depthLimit document
  match values with
  | [reportErrors, optimize, rounds, shortJumpMax, registers] =>
    let default : Options := {}
    return {
      reportErrors := ← Json.fieldOr default.reportErrors Json.bool? reportErrors
      optimize := ← Json.fieldOr default.optimize Json.bool? optimize
      rounds := ← Json.fieldOr default.rounds Json.count? rounds
      shortJumpMax := ← Json.fieldOr default.shortJumpMax Json.count? shortJumpMax
      registers := ← Json.fieldOr default.registers Json.count? registers }
  | _ => none

/-- Refuses more registers than the pool has. -/
def validate (o : Options) : Except CompileError Unit :=
  if o.registers.toNat ≤ Register.pool.length then .ok ()
  else .error (.invalidOption
    s!"registers must be at most {Register.pool.length}, got {o.registers.toNat}")

/-- The options that a text holds, validated. -/
def parse (text : String) : Except CompileError Options := do
  match (Json.parse text).bind ofJson? with
  | none => .error (.badJson "not a document of compile options")
  | some options =>
    options.validate
    return options

/-- The registers that allocation may hand out. -/
def pool (o : Options) : List Register := Register.pool.take o.registers.toNat

end Options

end StackCompiler
