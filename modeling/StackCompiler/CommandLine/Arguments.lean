import StackCompiler.Text.Decimal

/-!
# Arguments

`Request.parse` reads the arguments of the command line, from left to right.  An option
is given as `--name value` or `--name=value`, the short ones also as `-ovalue`, and
short flags may stand together.  An argument that starts with a dash is an option,
except for the dash alone and for what comes after `--`.  The first argument that is no
option names the input and the others select a nested function.  A request for help or
for the version counts as soon as it is met.
-/

namespace StackCompiler.CommandLine

/-- The encoding of the input. -/
inductive Format where
  | bytecode
  | json
  deriving DecidableEq, Repr

/-- What is written. -/
inductive Product where
  /-- The intermediate representation as lowered. -/
  | lowered
  /-- The intermediate representation, optimized and with registers. -/
  | ir
  /-- The listing of the machine code. -/
  | asm
  /-- The machine code. -/
  | bin
  deriving DecidableEq, Repr

/-- How errors are written. -/
inductive ErrorFormat where
  | human
  | json
  deriving DecidableEq, Repr

/-- The arguments met so far. -/
structure Arguments where
  file : Option String := none
  path : List Nat := []
  format : Option Format := none
  product : Option Product := none
  reportErrors : Bool := false
  noOptimize : Bool := false
  registers : Option UInt64 := none
  config : Option String := none
  errorFormat : Option ErrorFormat := none
  output : Option String := none
  verbosity : Nat := 0
  deriving DecidableEq, Repr, Inhabited

/-- An option with a value. -/
inductive Setting where
  | format | product | registers | config | errorFormat | output
  deriving DecidableEq, Repr

/-- An option without a value. -/
inductive Flag where
  | reportErrors | noOptimize | verbose | help | version
  deriving DecidableEq, Repr

/-- The option with a long name. -/
def longOption? : String → Option (Setting ⊕ Flag)
  | "format" => some (.inl .format)
  | "emit" => some (.inl .product)
  | "registers" => some (.inl .registers)
  | "config" => some (.inl .config)
  | "error-format" => some (.inl .errorFormat)
  | "output" => some (.inl .output)
  | "report-errors" => some (.inr .reportErrors)
  | "no-optimize" => some (.inr .noOptimize)
  | "verbose" => some (.inr .verbose)
  | "help" => some (.inr .help)
  | "version" => some (.inr .version)
  | _ => none

/-- The option with a short name. -/
def shortOption? : Char → Option (Setting ⊕ Flag)
  | 'o' => some (.inl .output)
  | 'v' => some (.inr .verbose)
  | 'h' => some (.inr .help)
  | 'V' => some (.inr .version)
  | _ => none

/-- Why the reading of arguments ends early. -/
inductive Halt where
  | misuse
  | help
  | version
  deriving DecidableEq, Repr

namespace Arguments

/-- A value that is given once. -/
def once {α : Type} (old : Option α) (value : Option α) : Except Halt (Option α) :=
  match old, value with
  | none, some v => .ok (some v)
  | _, _ => .error .misuse

/-- A name that is not empty. -/
def name? (s : String) : Option String := if s.isEmpty then none else some s

/-- The encoding with the given name. -/
def format? : String → Option Format
  | "bytecode" => some .bytecode
  | "json" => some .json
  | _ => none

/-- The product with the given name. -/
def product? : String → Option Product
  | "lowered" => some .lowered
  | "ir" => some .ir
  | "asm" => some .asm
  | "bin" => some .bin
  | _ => none

/-- The form of errors with the given name. -/
def errorFormat? : String → Option ErrorFormat
  | "human" => some .human
  | "json" => some .json
  | _ => none

/-- Takes the value of an option. -/
def set (a : Arguments) (value : String) : Setting → Except Halt Arguments
  | .format => do return { a with format := ← once a.format (format? value) }
  | .product => do return { a with product := ← once a.product (product? value) }
  | .registers => do return { a with registers := ← once a.registers (Text.count? value) }
  | .config => do return { a with config := ← once a.config (name? value) }
  | .errorFormat => do return { a with errorFormat := ← once a.errorFormat (errorFormat? value) }
  | .output => do return { a with output := ← once a.output (name? value) }

/-- Takes a flag; all but the one for verbosity are given once. -/
def flag (a : Arguments) : Flag → Except Halt Arguments
  | .reportErrors => if a.reportErrors then .error .misuse else .ok { a with reportErrors := true }
  | .noOptimize => if a.noOptimize then .error .misuse else .ok { a with noOptimize := true }
  | .verbose => .ok { a with verbosity := a.verbosity + 1 }
  | .help => .error .help
  | .version => .error .version

/-- Takes an argument that is no option. -/
def positional (a : Arguments) (value : String) : Except Halt Arguments :=
  match a.file, Text.count? value with
  | none, _ => do return { a with file := ← once none (name? value) }
  | some _, some index => .ok { a with path := a.path ++ [index.toNat] }
  | some _, none => .error .misuse

end Arguments

/-- The reading of arguments under way: what was met, the option that waits for its
value, and whether options are over. -/
structure Reading where
  met : Arguments := {}
  awaiting : Option Setting := none
  optionsOver : Bool := false

namespace Reading

/-- Takes a long option, after its dashes. -/
def long (r : Reading) (text : List Char) : Except Halt Reading :=
  let (name, rest) := text.span (· ≠ '=')
  match longOption? (String.ofList name), rest with
  | some (.inl setting), [] => .ok { r with awaiting := some setting }
  | some (.inl setting), _ :: value => do
    return { r with met := ← r.met.set (String.ofList value) setting }
  | some (.inr flag), [] => do return { r with met := ← r.met.flag flag }
  | _, _ => .error .misuse

/-- Takes short options, after their dash.  One with a value takes the rest as the
value, or waits for it if nothing is left. -/
def short (r : Reading) : List Char → Except Halt Reading
  | [] => .ok r
  | c :: rest =>
    match shortOption? c, rest with
    | some (.inl setting), [] => .ok { r with awaiting := some setting }
    | some (.inl setting), '=' :: value | some (.inl setting), value => do
      return { r with met := ← r.met.set (String.ofList value) setting }
    | some (.inr flag), rest => do short { r with met := ← r.met.flag flag } rest
    | none, _ => .error .misuse

/-- Takes an argument that is no option: the value that is waited for, or a positional
one. -/
def plain (r : Reading) (arg : String) : Except Halt Reading :=
  match r.awaiting with
  | some setting => do return { r with met := ← r.met.set arg setting, awaiting := none }
  | none => do return { r with met := ← r.met.positional arg }

/-- Takes an option; it cannot be the value that another one waits for. -/
def option (r : Reading) (take : Reading → Except Halt Reading) : Except Halt Reading :=
  if r.awaiting.isSome then .error .misuse else take r

/-- Takes one argument. -/
def step (r : Reading) (arg : String) : Except Halt Reading :=
  if r.optionsOver then r.plain arg
  else
    match arg.toList with
    | ['-', '-'] => r.option fun r => .ok { r with optionsOver := true }
    | '-' :: '-' :: text => r.option (·.long text)
    | ['-'] => r.plain arg
    | '-' :: text => r.option (·.short text)
    | _ => r.plain arg

end Reading

/-- A run of the compiler, as asked for. -/
structure Invocation where
  file : String
  path : List Nat
  format : Format
  product : Product
  reportErrors : Bool
  noOptimize : Bool
  registers : Option UInt64
  config : Option String
  errorFormat : ErrorFormat
  output : Option String
  deriving DecidableEq, Repr

/-- What the arguments ask for. -/
inductive Request where
  | compile (invocation : Invocation)
  | halt (reason : Halt)
  deriving DecidableEq, Repr

/-- The run that complete arguments ask for; the input must be named. -/
def Arguments.invocation? (a : Arguments) : Option Invocation := do
  let file ← a.file
  return {
    file
    path := a.path
    format := a.format.getD .bytecode
    product := a.product.getD .asm
    reportErrors := a.reportErrors
    noOptimize := a.noOptimize
    registers := a.registers
    config := a.config
    errorFormat := a.errorFormat.getD .human
    output := a.output }

/-- Reads the arguments. -/
def Request.parse (args : List String) : Request :=
  match args.foldlM Reading.step {} with
  | .error reason => .halt reason
  | .ok r =>
    match r.awaiting, r.met.invocation? with
    | none, some invocation => .compile invocation
    | _, _ => .halt .misuse

end StackCompiler.CommandLine
