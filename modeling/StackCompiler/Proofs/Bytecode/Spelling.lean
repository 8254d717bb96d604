import Mathlib.Data.List.Forall2
import StackCompiler.Bytecode.Function

/-!
# The spellings of a function

`Spells f ts` says that the lexemes `ts` spell the function `f`: its fields in the order of the
grammar, with an optional comma after the last item of each list of functions, constants or names.
`Laid ts text` says that `text` consists of the lexemes `ts` with separators before, between and
after them.  A separator is any mixture of blanks and of comments that end with their line.
-/

namespace StackCompiler.Bytecode

/-! ### Layout -/

/-- Blanks, and comments with the ends of their lines. -/
inductive Separator : List Char → Prop
  | nil :
      Separator []
  | blank {c : Char} {rest : List Char} (hc : c ∈ [' ', '\t', '\r', '\n']) (hrest : Separator rest) :
      Separator (c :: rest)
  | comment {cs rest : List Char} (hcs : '\n' ∉ cs) (hrest : Separator rest) :
      Separator ('/' :: '/' :: (cs ++ '\n' :: rest))

/-- `Laid ts text` when `text` consists of the lexemes `ts` with a separator that is not empty
before each of them and at the end. -/
inductive Laid : List String → List Char → Prop
  | done {sep : List Char} (hsep : Separator sep) (hne : sep ≠ []) :
      Laid [] sep
  | lexeme {sep rest : List Char} {t : String} {ts : List String} (hsep : Separator sep)
      (hne : sep ≠ []) (hrest : Laid ts rest) :
      Laid (t :: ts) (sep ++ (t.toList ++ rest))

/-! ### Lexemes -/

/-- A character of a string literal; a backslash stands before quotes and backslashes. -/
def escapeChar (c : Char) : List Char := if c = '\\' ∨ c = '"' then ['\\', c] else [c]

/-- The characters of a string literal between its quotes. -/
def escape (text : List Char) : List Char := text.flatMap escapeChar

/-- The lexeme of a constant. -/
def Constant.lexeme : Constant → String
  | none => "None"
  | integer n => toString n.toInt
  | string s => String.ofList ('"' :: (escape s.toList ++ ['"']))
  | boolean b => if b then "true" else "false"

/-- The lexemes of an instruction. -/
def Instruction.lexemes (i : Instruction) : List String :=
  i.op.mnemonic :: (i.operand.map fun n => toString n.toInt).toList

/-- `Listed items ts` when `ts` is the list of the items in brackets, with commas between them and
possibly a comma after the last. -/
inductive Listed (items : List (List String)) : List String → Prop
  | plain :
      Listed items ("[" :: ([","].intercalate items ++ ["]"]))
  | trailing (hne : items ≠ []) :
      Listed items ("[" :: ([","].intercalate items ++ [",", "]"]))

/-! ### Functions -/

/-- The lexemes of a function whose fields have the given lexemes. -/
def functionLexemes (functions constants parameterCount localVars localRefVars freeVars names
    instructions : List String) : List String :=
  ["function", "\x7b"]
    ++ ["functions", "="] ++ functions ++ [","]
    ++ ["constants", "="] ++ constants ++ [","]
    ++ ["parameter_count", "="] ++ parameterCount ++ [","]
    ++ ["local_vars", "="] ++ localVars ++ [","]
    ++ ["local_ref_vars", "="] ++ localRefVars ++ [","]
    ++ ["free_vars", "="] ++ freeVars ++ [","]
    ++ ["names", "="] ++ names ++ [","]
    ++ ["instructions", "="] ++ instructions ++ ["\x7d"]

/-- The lexemes of instructions in brackets. -/
def instructionLexemes (instructions : List Instruction) : List String :=
  "[" :: (instructions.flatMap Instruction.lexemes ++ ["]"])

mutual

/-- `Spells f ts` when the lexemes `ts` spell the function `f`. -/
inductive Spells : Function → List String → Prop
  | function {f : Function} {nested : List (List String)}
      {functions constants localVars localRefVars freeVars names : List String}
      (hnested : SpellsAll f.functions nested)
      (hfunctions : Listed nested functions)
      (hconstants : Listed (f.constants.map fun c => [c.lexeme]) constants)
      (hlocalVars : Listed (f.localVars.map fun name => [name]) localVars)
      (hlocalRefVars : Listed (f.localRefVars.map fun name => [name]) localRefVars)
      (hfreeVars : Listed (f.freeVars.map fun name => [name]) freeVars)
      (hnames : Listed (f.names.map fun name => [name]) names) :
      Spells f (functionLexemes functions constants [toString f.parameterCount.toNat] localVars
        localRefVars freeVars names (instructionLexemes f.instructions))

/-- `SpellsAll fs parts` when each of the lexeme sequences spells its function. -/
inductive SpellsAll : List Function → List (List String) → Prop
  | nil :
      SpellsAll [] []
  | cons {f : Function} {fs : List Function} {ts : List String} {parts : List (List String)}
      (hf : Spells f ts) (hfs : SpellsAll fs parts) :
      SpellsAll (f :: fs) (ts :: parts)

end

/-- Whether a text is an identifier. -/
def isIdentifier (s : String) : Bool :=
  match s.toList with
  | [] => false
  | c :: cs => (c.isAlpha || c = '_') && cs.all fun c => c.isAlphanum || c = '_'

mutual

/-- Whether a function has a spelling: every name is an identifier, and an instruction has an operand
exactly when its opcode carries one. -/
def Function.Writable : Function → Prop
  | ⟨functions, _, _, localVars, localRefVars, freeVars, names, instructions⟩ =>
    (∀ s ∈ localVars ++ localRefVars ++ freeVars ++ names, isIdentifier s = true)
      ∧ (∀ i ∈ instructions, i.operand.isSome = i.op.takesOperand)
      ∧ Function.AllWritable functions

/-- Whether each of some functions has a spelling. -/
def Function.AllWritable : List Function → Prop
  | [] => True
  | f :: fs => f.Writable ∧ Function.AllWritable fs

end

end StackCompiler.Bytecode
