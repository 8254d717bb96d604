/-!
# The grammar of bytecode text

`Grammar.file?` matches a whole text against the grammar and returns the tree of what
it read.  Blanks and comments may stand between any two tokens, and no token needs a
boundary: `load_const 0load_const 1` is two instructions.  Numbers and instructions in
the tree remember the text from their first character on, so that a later refusal can
tell its place.
-/

namespace StackCompiler.Bytecode.Grammar

/-! ### Trees -/

/-- A number as written. -/
structure Numeral where
  digits : List Char
  /-- The text from the numeral on. -/
  start : List Char

/-- A constant as written. -/
inductive ConstantTree where
  | none
  | boolean (b : Bool)
  | integer (n : Numeral)
  /-- The characters between the quotes, with their escapes. -/
  | string (chars : List Char)

/-- An instruction as written. -/
structure InstructionTree where
  mnemonic : List Char
  operand : Option Numeral
  /-- The text from the instruction on. -/
  start : List Char

/-- A function as written. -/
structure FunctionTree where
  functions : List FunctionTree
  constants : List ConstantTree
  parameterCount : Numeral
  localVars : List (List Char)
  localRefVars : List (List Char)
  freeVars : List (List Char)
  names : List (List Char)
  instructions : List InstructionTree

/-! ### Blanks and tokens -/

/-- A match at the start of a text: what was read, and the text after it. -/
abbrev Rule (α : Type) := List Char → Option (α × List Char)

/-- A blank between tokens. -/
def isBlank (c : Char) : Bool := c = ' ' || c = '\t' || c = '\r' || c = '\n'

/-- The text after blanks and comments.  The flag tells whether a comment is open; a
comment runs up to the end of its line. -/
def skipFrom : Bool → List Char → List Char
  | _, [] => []
  | true, c :: rest => if c = '\n' then skipFrom false rest else skipFrom true rest
  | false, '/' :: '/' :: rest => skipFrom true rest
  | false, c :: rest => if isBlank c then skipFrom false rest else c :: rest

/-- The text after blanks and comments. -/
def skip (s : List Char) : List Char := skipFrom false s

/-- The text after the given characters. -/
def dropWord? : List Char → List Char → Option (List Char)
  | [], s => some s
  | _ :: _, [] => none
  | w :: ws, c :: s => if w = c then dropWord? ws s else none

/-- Matches a word after blanks. -/
def word (w : String) (s : List Char) : Option (List Char) := dropWord? w.toList (skip s)

/-- The longest run of characters of a class, which may be empty. -/
def run (isIn : Char → Bool) (s : List Char) : List Char × List Char :=
  (s.takeWhile isIn, s.dropWhile isIn)

/-- Matches a character of one class and then the longest run of another. -/
def headed (isHead isTail : Char → Bool) : Rule (List Char)
  | [] => none
  | c :: rest =>
    if isHead c then some (c :: (run isTail rest).1, (run isTail rest).2) else none

/-- An identifier. -/
def identifier (s : List Char) : Option (List Char × List Char) :=
  headed (fun c => c.isAlpha || c = '_') (fun c => c.isAlphanum || c = '_') (skip s)

/-- A mnemonic. -/
def mnemonic (s : List Char) : Option (List Char × List Char) :=
  headed Char.isAlpha (fun c => c.isAlpha || c = '_') (skip s)

/-- A number without a sign. -/
def count (s : List Char) : Option (Numeral × List Char) := do
  let start := skip s
  let (digits, rest) ← headed Char.isDigit Char.isDigit start
  return (⟨digits, start⟩, rest)

/-- A number that may have a minus sign. -/
def integer (s : List Char) : Option (Numeral × List Char) :=
  match skip s with
  | '-' :: unsigned => do
    let (digits, rest) ← headed Char.isDigit Char.isDigit unsigned
    return (⟨'-' :: digits, '-' :: unsigned⟩, rest)
  | _ => count s

/-- The characters up to the closing quote, and the text from that quote on.  A
backslash takes the character after it along. -/
def chars : Rule (List Char)
  | [] => some ([], [])
  | '\\' :: c :: rest => (chars rest).map fun (cs, rest) => ('\\' :: c :: cs, rest)
  | c :: rest =>
    if c = '\\' ∨ c = '"' then some ([], c :: rest)
    else (chars rest).map fun (cs, rest) => (c :: cs, rest)

/-- A string in quotes. -/
def string (s : List Char) : Option (List Char × List Char) := do
  let (cs, rest) ← chars (← word "\"" s)
  let rest ← dropWord? ['"'] rest
  return (cs, rest)

/-! ### Lists

Repetition takes as many members as match and never gives one back.  Its fuel is the
length of the text, since a member is never empty. -/

/-- As many members as match, one after the other. -/
def many {α : Type} (member : Rule α) : Nat → List Char → List α × List Char
  | 0, s => ([], s)
  | fuel + 1, s =>
    match member s with
    | none => ([], s)
    | some (a, rest) =>
      let (as, rest) := many member fuel rest
      (a :: as, rest)

/-- Members with commas between them and possibly one after the last, in brackets. -/
def bracketed {α : Type} (member : Rule α) (s : List Char) : Option (List α × List Char) := do
  let s ← word "[" s
  match member s with
  | none => return ([], ← word "]" s)
  | some (a, s) =>
    let next : Rule α := fun s => do member (← word "," s)
    let (as, s) := many next s.length s
    let s := (word "," s).getD s
    return (a :: as, ← word "]" s)

/-! ### Rules -/

/-- A constant. -/
def constant (s : List Char) : Option (ConstantTree × List Char) :=
  match word "None" s with
  | some rest => some (.none, rest)
  | none =>
    match word "true" s with
    | some rest => some (.boolean true, rest)
    | none =>
      match word "false" s with
      | some rest => some (.boolean false, rest)
      | none =>
        match integer s with
        | some (n, rest) => some (.integer n, rest)
        | none => (string s).map fun (cs, rest) => (.string cs, rest)

/-- An instruction. -/
def instruction (s : List Char) : Option (InstructionTree × List Char) := do
  let (name, rest) ← mnemonic s
  match integer rest with
  | some (n, rest) => return (⟨name, some n, skip s⟩, rest)
  | none => return (⟨name, none, skip s⟩, rest)

/-- Instructions in brackets. -/
def instructions (s : List Char) : Option (List InstructionTree × List Char) := do
  let s ← word "[" s
  let (is, s) := many instruction s.length s
  return (is, ← word "]" s)

/-- A field: its name, an equals sign and its value. -/
def field {α : Type} (name : String) (value : Rule α) (s : List Char) :
    Option (α × List Char) := do
  let s ← word name s
  let s ← word "=" s
  value s

/-- A function whose nesting is at most the given depth. -/
def function : Nat → Rule FunctionTree
  | 0, _ => none
  | depth + 1, s => do
    let s ← word "function" s
    let s ← word "\x7b" s
    let (functions, s) ← field "functions" (bracketed (function depth)) s
    let s ← word "," s
    let (constants, s) ← field "constants" (bracketed constant) s
    let s ← word "," s
    let (parameterCount, s) ← field "parameter_count" count s
    let s ← word "," s
    let (localVars, s) ← field "local_vars" (bracketed identifier) s
    let s ← word "," s
    let (localRefVars, s) ← field "local_ref_vars" (bracketed identifier) s
    let s ← word "," s
    let (freeVars, s) ← field "free_vars" (bracketed identifier) s
    let s ← word "," s
    let (names, s) ← field "names" (bracketed identifier) s
    let s ← word "," s
    let (instructions, s) ← field "instructions" instructions s
    let s ← word "\x7d" s
    return (⟨functions, constants, parameterCount, localVars, localRefVars, freeVars, names,
      instructions⟩, s)

/-- The function that a whole text spells.  A text nests no deeper than it is long. -/
def file? (text : List Char) : Option FunctionTree :=
  match function text.length text with
  | some (tree, rest) => if (skip rest).isEmpty then some tree else none
  | none => none

end StackCompiler.Bytecode.Grammar
