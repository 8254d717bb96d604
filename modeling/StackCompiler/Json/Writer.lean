import StackCompiler.Json.Basic

/-!
# Writing JSON

`Json.compact` writes a document without blanks, and `Json.pretty` one item to a
line with two blanks of indentation for each level.  Empty arrays and objects take
two characters in both forms.
-/

namespace StackCompiler.Json

/-- A literal in quotes. -/
def quote (literal : List Char) : List Char := '"' :: (literal ++ ['"'])

/-- The word of a truth value. -/
def boolText (b : Bool) : List Char := if b then "true".toList else "false".toList

/-! ### Compact form -/

mutual

/-- The compact form of a document. -/
def compact : Json → List Char
  | .null => "null".toList
  | .bool b => boolText b
  | .number literal => literal
  | .string literal => quote literal
  | .array items => '[' :: (compactItems items ++ [']'])
  | .object members => '\x7b' :: (compactMembers members ++ ['\x7d'])

/-- Items with commas between them. -/
def compactItems : List Json → List Char
  | [] => []
  | [v] => compact v
  | v :: vs => compact v ++ ',' :: compactItems vs

/-- Members with commas between them. -/
def compactMembers : List (List Char × Json) → List Char
  | [] => []
  | [(key, v)] => quote key ++ ':' :: compact v
  | (key, v) :: ms => quote key ++ ':' :: (compact v ++ ',' :: compactMembers ms)

end

/-! ### Pretty form -/

/-- A new line indented to `level`. -/
def newline (level : Nat) : List Char := '\n' :: List.replicate (2 * level) ' '

mutual

/-- The pretty form of a document whose lines are indented from `level` on. -/
def prettyAt (level : Nat) : Json → List Char
  | .null => "null".toList
  | .bool b => boolText b
  | .number literal => literal
  | .string literal => quote literal
  | .array [] => ['[', ']']
  | .array (v :: vs) => '[' :: (prettyItems (level + 1) (v :: vs) ++ newline level ++ [']'])
  | .object [] => ['\x7b', '\x7d']
  | .object (m :: ms) => '\x7b' :: (prettyMembers (level + 1) (m :: ms) ++ newline level ++ ['\x7d'])

/-- Items, each on a line of its own. -/
def prettyItems (level : Nat) : List Json → List Char
  | [] => []
  | [v] => newline level ++ prettyAt level v
  | v :: vs => newline level ++ prettyAt level v ++ ',' :: prettyItems level vs

/-- Members, each on a line of its own. -/
def prettyMembers (level : Nat) : List (List Char × Json) → List Char
  | [] => []
  | [(key, v)] => newline level ++ quote key ++ ':' :: ' ' :: prettyAt level v
  | (key, v) :: ms =>
    newline level ++ quote key ++ ':' :: ' ' :: (prettyAt level v ++ ',' :: prettyMembers level ms)

end

/-- The pretty form of a document. -/
def pretty (document : Json) : String := String.ofList (prettyAt 0 document)

/-- The compact form of a document. -/
def line (document : Json) : String := String.ofList (compact document)

end StackCompiler.Json
