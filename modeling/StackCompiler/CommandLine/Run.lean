import StackCompiler.Bytecode.Json
import StackCompiler.Bytecode.Text
import StackCompiler.CommandLine.Arguments
import StackCompiler.Compile

/-!
# Runs of the command line

`run` does what the arguments ask for on a `Host`, which gives access to files and to
standard input in any monad, and returns an `Outcome`: the exit code and what goes to
the two standard streams.  Options are settled before the input is read.
-/

namespace StackCompiler.CommandLine

/-- Access to files and to standard input.  What fails says why. -/
structure Host (m : Type → Type) where
  /-- The text of a file. -/
  contents : String → m (Except String String)
  /-- The text of standard input. -/
  input : m (Except String String)
  /-- Makes a file of bytes. -/
  save : String → List UInt8 → m (Except String Unit)

/-- How a run ended. -/
structure Outcome where
  exitCode : UInt8
  stdout : List UInt8 := []
  stderr : String := ""
  deriving DecidableEq, Repr

/-- Why a run failed. -/
inductive Failure where
  /-- A file or a stream could not be used. -/
  | access (message : String)
  | compile (cause : CompileError)
  deriving DecidableEq, Repr

/-- The bytes of a text. -/
def utf8 (s : String) : List UInt8 := s.toUTF8.toList

/-- The line that reports a failure. -/
def Failure.report (format : ErrorFormat) : Failure → String
  | .access message => s!"error: {message}\n"
  | .compile cause =>
    match format with
    | .json => cause.diagnostic ++ "\n"
    | .human =>
      let label := if cause.isInternal then "internal error" else "error"
      s!"{label}[{cause.code}]: {cause.message}\n"

/-- The text that says how the program is used. -/
def usage : String :=
  "Usage: stackjit [OPTIONS] <FILE> [PATH]...

Arguments:
  <FILE>     Input program (- reads stdin)
  [PATH]...  Indices selecting a nested function (default: the top level)

Options:
      --format <FORMAT>        Input encoding: bytecode (default) or json
      --emit <EMIT>            What to print: lowered, ir, asm (default) or bin
      --report-errors          Report statically provable runtime errors at compile time
      --no-optimize            Skip the optimization passes
      --registers <N>          Size of the register pool
      --config <FILE>          JSON file with compile options
      --error-format <FORMAT>  How to print errors: human (default) or json
  -o, --output <OUTPUT>        Output file path
  -v, --verbose                Log passes (-v) and allocation decisions (-vv)
  -h, --help                   Print help
  -V, --version                Print version
"

/-- The line that names the version. -/
def version : String := "stackjit 0.1.0\n"

namespace Invocation

/-- The options of a configuration, changed by the arguments. -/
def adjust (i : Invocation) (o : Options) : Options :=
  { o with
    reportErrors := o.reportErrors || i.reportErrors
    optimize := o.optimize && !i.noOptimize
    registers := i.registers.getD o.registers }

/-- The program in a text. -/
def program (i : Invocation) (text : String) : Except CompileError Bytecode.Function :=
  match i.format with
  | .bytecode => Bytecode.Function.parse text
  | .json => Bytecode.Function.parseJson text

/-- The bytes to write for a function. -/
def produce (i : Invocation) (options : Options) (f : Bytecode.Function) :
    Except CompileError (List UInt8) :=
  match i.product with
  | .lowered => do return utf8 (← IR.lower f).render
  | .ir => do
    let func ← compileIR f options
    return utf8 (func.render ++ "\n" ++ func.allocationTable)
  | .asm => do
    let native ← compileNative f options []
    return utf8 ("\n".intercalate native.listing ++ "\n")
  | .bin => do return (← compileNative f options []).code

/-- The bytes to write for an input text. -/
def compile (i : Invocation) (options : Options) (text : String) :
    Except CompileError (List UInt8) := do
  i.produce options (← (← i.program text).select i.path)

end Invocation

section

variable {m : Type → Type} [Monad m]

/-- Steps of a run on a host. -/
abbrev Step (m : Type → Type) := ExceptT Failure m

/-- Goes on with what a compilation gives. -/
def compiled {α : Type} : Except CompileError α → Step m α
  | .ok value => pure value
  | .error cause => throw (.compile cause)

/-- Goes on with what the host gives; `context` says what was tried. -/
def accessed {α : Type} (context : String) (action : m (Except String α)) : Step m α := do
  match ← action with
  | .ok value => pure value
  | .error reason => throw (.access s!"{context}: {reason}")

/-- The options of a run. -/
def loadOptions (host : Host m) (i : Invocation) : Step m Options := do
  let base ← match i.config with
    | some file => do
      compiled (Options.parse (← accessed s!"could not read '{file}'" (host.contents file)))
    | none => pure {}
  let options := i.adjust base
  compiled options.validate
  return options

/-- The text to compile. -/
def loadText (host : Host m) (i : Invocation) : Step m String :=
  if i.file = "-" then accessed "could not read stdin" host.input
  else accessed s!"could not read '{i.file}'" (host.contents i.file)

/-- Compiles and writes the result. -/
def perform (host : Host m) (i : Invocation) : Step m Outcome := do
  let options ← loadOptions host i
  let text ← loadText host i
  let bytes ← compiled (i.compile options text)
  match i.output with
  | some file => do
    accessed s!"could not write '{file}'" (host.save file bytes)
    return { exitCode := 0, stderr := s!"Wrote {file} ({bytes.length} bytes)\n" }
  | none => return { exitCode := 0, stdout := bytes }

/-- Does what the arguments ask for. -/
def run (host : Host m) (args : List String) : m Outcome := do
  match Request.parse args with
  | .halt .help => return { exitCode := 0, stdout := utf8 usage }
  | .halt .version => return { exitCode := 0, stdout := utf8 version }
  | .halt .misuse => return { exitCode := 2, stderr := usage }
  | .compile i =>
    match ← (perform host i).run with
    | .ok outcome => return outcome
    | .error failure => return { exitCode := 1, stderr := failure.report i.errorFormat }

end

end StackCompiler.CommandLine
