import StackCompiler.Text.Decimal

/-!
# JSON documents

`Json` is the tree of a document.  Numbers and strings are kept as literals: the
characters that stand in the text, for strings those between the quotes.  What a
literal denotes is read on demand, by `Json.integer?` and `Json.text?`, since a
reader that skips a value only asks that it is well formed.
-/

namespace StackCompiler

/-- A JSON document. -/
inductive Json where
  | null
  | bool (b : Bool)
  | number (literal : List Char)
  | string (literal : List Char)
  | array (items : List Json)
  | object (members : List (List Char × Json))
  deriving Inhabited

namespace Json

open Text (decimal isDigits)

/-! ### String literals -/

/-- The characters that stand for `c` inside a string literal. -/
def escapeChar (c : Char) : List Char :=
  if c = '"' then ['\\', '"']
  else if c = '\\' then ['\\', '\\']
  else if c = '\x08' then ['\\', 'b']
  else if c = '\x0c' then ['\\', 'f']
  else if c = '\n' then ['\\', 'n']
  else if c = '\r' then ['\\', 'r']
  else if c = '\t' then ['\\', 't']
  else if c.toNat < 0x20 then
    ['\\', 'u', '0', '0', Nat.digitChar (c.toNat / 16), Nat.digitChar (c.toNat % 16)]
  else [c]

/-- The literal of a text. -/
def escape (text : List Char) : List Char := text.flatMap escapeChar

/-- The value of a hexadecimal digit. -/
def hexDigit? (c : Char) : Option Nat :=
  if '0' ≤ c ∧ c ≤ '9' then some (c.toNat - '0'.toNat)
  else if 'a' ≤ c ∧ c ≤ 'f' then some (c.toNat - 'a'.toNat + 10)
  else if 'A' ≤ c ∧ c ≤ 'F' then some (c.toNat - 'A'.toNat + 10)
  else none

/-- The number that four hexadecimal digits spell. -/
def hexQuad? (a b c d : Char) : Option Nat := do
  let w ← hexDigit? a
  let x ← hexDigit? b
  let y ← hexDigit? c
  let z ← hexDigit? d
  return ((w * 16 + x) * 16 + y) * 16 + z

/-- The character that follows a backslash, as the character it stands for. -/
def shortEscape? (c : Char) : Option Char :=
  if c = '"' ∨ c = '\\' ∨ c = '/' then some c
  else if c = 'b' then some '\x08'
  else if c = 'f' then some '\x0c'
  else if c = 'n' then some '\n'
  else if c = 'r' then some '\r'
  else if c = 't' then some '\t'
  else none

/-- What a step through a literal yields: a character, or a 16-bit code unit that was
written by its number. -/
inductive Piece where
  | char (c : Char)
  | unit (n : Nat)
  deriving DecidableEq, Repr

/-- The pieces of a literal.  A literal holds no quote and no control character, and
every backslash in it starts an escape. -/
def pieces? : List Char → Option (List Piece)
  | [] => some []
  | '\\' :: 'u' :: a :: b :: c :: d :: rest => do
    let n ← hexQuad? a b c d
    return .unit n :: (← pieces? rest)
  | '\\' :: c :: rest => do
    let e ← shortEscape? c
    return .char e :: (← pieces? rest)
  | c :: rest =>
    if c = '\\' ∨ c = '"' ∨ c.toNat < 0x20 then none
    else return .char c :: (← pieces? rest)

/-- Whether the characters may stand between quotes. -/
def isLiteral (literal : List Char) : Bool := (pieces? literal).isSome

/-- Whether a code unit is the first half of a surrogate pair. -/
def isHighSurrogate (n : Nat) : Bool := 0xD800 ≤ n && n < 0xDC00

/-- Whether a code unit is the second half of a surrogate pair. -/
def isLowSurrogate (n : Nat) : Bool := 0xDC00 ≤ n && n < 0xE000

/-- The character of a surrogate pair. -/
def surrogatePair (high low : Nat) : Char :=
  Char.ofNat (0x10000 + (high - 0xD800) * 0x400 + (low - 0xDC00))

/-- The text that pieces spell; half of a surrogate pair alone spells none. -/
def joinPieces? : List Piece → Option (List Char)
  | [] => some []
  | .char c :: rest => do return c :: (← joinPieces? rest)
  | .unit n :: rest =>
    if isHighSurrogate n then
      match rest with
      | .unit m :: rest' =>
        if isLowSurrogate m then do return surrogatePair n m :: (← joinPieces? rest') else none
      | _ => none
    else if isLowSurrogate n then none
    else do return Char.ofNat n :: (← joinPieces? rest)

/-- The text that a literal denotes. -/
def unescape? (literal : List Char) : Option (List Char) := (pieces? literal).bind joinPieces?

/-! ### Number literals -/

/-- Whether the characters are digits that do not start with a superfluous zero. -/
def isWhole : List Char → Bool
  | ['0'] => true
  | '0' :: _ => false
  | cs => isDigits cs

/-- Whether the characters are an exponent: digits after an optional sign. -/
def isExponent : List Char → Bool
  | '+' :: digits => isDigits digits
  | '-' :: digits => isDigits digits
  | digits => isDigits digits

/-- Whether the characters may follow the whole part of a number. -/
def isFractionTail (cs : List Char) : Bool :=
  match cs.span Char.isDigit with
  | (digits, []) => isDigits digits
  | (digits, e :: exponent) => isDigits digits && (e = 'e' || e = 'E') && isExponent exponent

/-- Whether the characters are a number without a sign. -/
def isUnsigned (cs : List Char) : Bool :=
  match cs.span Char.isDigit with
  | (whole, []) => isWhole whole
  | (whole, '.' :: rest) => isWhole whole && isFractionTail rest
  | (whole, e :: exponent) => isWhole whole && (e = 'e' || e = 'E') && isExponent exponent

/-- Whether the characters are a number literal. -/
def isNumber : List Char → Bool
  | '-' :: cs => isUnsigned cs
  | cs => isUnsigned cs

/-! ### Values -/

/-- The integer that a literal without fraction and exponent denotes.  The literal
`-0` denotes none: it is a negative zero, which is no integer. -/
def integerOfLiteral? : List Char → Option Int
  | '-' :: cs => if isWhole cs ∧ decimal cs ≠ 0 then some (-(decimal cs : Int)) else none
  | cs => if isWhole cs then some (decimal cs) else none

/-- The integer that a value denotes. -/
def integer? : Json → Option Int
  | .number literal => integerOfLiteral? literal
  | _ => none

/-- The text that a value denotes. -/
def text? : Json → Option String
  | .string literal => (unescape? literal).map String.ofList
  | _ => none

/-- The truth value that a value denotes. -/
def bool? : Json → Option Bool
  | .bool b => some b
  | _ => none

/-- The document of a natural number. -/
def ofNat (n : Nat) : Json := .number (Nat.toDigits 10 n)

/-- The document of an integer. -/
def ofInt : Int → Json
  | .ofNat n => ofNat n
  | .negSucc n => .number ('-' :: Nat.toDigits 10 (n + 1))

/-- The document of a text. -/
def ofString (s : String) : Json := .string (escape s.toList)

/-- The document of fields with names. -/
def record (fields : List (String × Json)) : Json :=
  .object (fields.map fun (name, value) => (escape name.toList, value))

end Json

end StackCompiler
