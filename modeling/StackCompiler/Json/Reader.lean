import StackCompiler.Json.Basic

/-!
# Reading JSON

`Json.parse` reads a document in two runs, each one step for each symbol.  The
scanner turns characters into tokens; the builder turns tokens into a tree, with
the open arrays and objects on a stack.  Blanks may surround every token, and
nothing but blanks may follow the document.
-/

namespace StackCompiler.Json

/-! ### Tokens -/

/-- A piece of a document's text. -/
inductive Token where
  | openArray
  | closeArray
  | openObject
  | closeObject
  | comma
  | colon
  /-- A number or one of the three words, not yet told apart. -/
  | bare (text : List Char)
  /-- What stands between two quotes. -/
  | quoted (literal : List Char)
  deriving DecidableEq, Repr

/-- Where the scanner stands between two characters; what it has read of a token is
kept with the last character first. -/
inductive Mode where
  | idle
  | bare (seen : List Char)
  | quoted (seen : List Char)
  /-- After a backslash inside quotes. -/
  | escaped (seen : List Char)

/-- The scanner: its mode and the tokens it has read, the last one first. -/
structure Scanner where
  mode : Mode
  tokens : List Token

namespace Scanner

/-- A blank between tokens. -/
def isBlank (c : Char) : Bool := c = ' ' || c = '\t' || c = '\n' || c = '\r'

/-- A character of a number or a word. -/
def isBare (c : Char) : Bool := c.isAlphanum || c = '-' || c = '+' || c = '.'

/-- The token that one character makes. -/
def punctuation? (c : Char) : Option Token :=
  if c = '[' then some .openArray
  else if c = ']' then some .closeArray
  else if c = '\x7b' then some .openObject
  else if c = '\x7d' then some .closeObject
  else if c = ',' then some .comma
  else if c = ':' then some .colon
  else none

/-- Reads a character between tokens, after the given ones. -/
def start (tokens : List Token) (c : Char) : Option Scanner :=
  if isBlank c then some ⟨.idle, tokens⟩
  else if c = '"' then some ⟨.quoted [], tokens⟩
  else if isBare c then some ⟨.bare [c], tokens⟩
  else (punctuation? c).map fun t => ⟨.idle, t :: tokens⟩

/-- Reads one character. -/
def step (s : Scanner) (c : Char) : Option Scanner :=
  match s.mode with
  | .idle => start s.tokens c
  | .bare seen =>
    if isBare c then some ⟨.bare (c :: seen), s.tokens⟩
    else start (.bare seen.reverse :: s.tokens) c
  | .quoted seen =>
    if c = '"' then some ⟨.idle, .quoted seen.reverse :: s.tokens⟩
    else if c = '\\' then some ⟨.escaped (c :: seen), s.tokens⟩
    else some ⟨.quoted (c :: seen), s.tokens⟩
  | .escaped seen => some ⟨.quoted (c :: seen), s.tokens⟩

/-- The tokens in reading order, once the text has ended outside quotes. -/
def finish (s : Scanner) : Option (List Token) :=
  match s.mode with
  | .idle => some s.tokens.reverse
  | .bare seen => some (Token.bare seen.reverse :: s.tokens).reverse
  | _ => none

end Scanner

/-- The tokens of a text. -/
def scan (text : List Char) : Option (List Token) :=
  (text.foldlM Scanner.step ⟨.idle, []⟩).bind Scanner.finish

/-! ### Trees -/

/-- An array or object whose next value is being read; earlier ones are kept with
the last first. -/
inductive Frame where
  | item (before : List Json)
  | member (before : List (List Char × Json)) (key : List Char)

/-- What the builder waits for. -/
inductive Phase where
  | value
  /-- An item or the end of the array just opened. -/
  | firstItem
  /-- A comma or the end of the array. -/
  | afterItem (items : List Json)
  /-- A key or the end of the object just opened. -/
  | firstKey
  | key (members : List (List Char × Json))
  | colon (members : List (List Char × Json)) (key : List Char)
  /-- A comma or the end of the object. -/
  | afterMember (members : List (List Char × Json))
  /-- Nothing: the document is complete. -/
  | done (document : Json)

/-- The builder: its phase and what is open around it, innermost first. -/
structure Builder where
  phase : Phase
  stack : List Frame

namespace Builder

/-- The value of a number or a word. -/
def scalar? (text : List Char) : Option Json :=
  if text = "null".toList then some .null
  else if text = "true".toList then some (.bool true)
  else if text = "false".toList then some (.bool false)
  else if isNumber text then some (.number text)
  else none

/-- Takes a complete value into what is open around it. -/
def complete (v : Json) : List Frame → Builder
  | [] => ⟨.done v, []⟩
  | .item before :: stack => ⟨.afterItem (v :: before), stack⟩
  | .member before key :: stack => ⟨.afterMember ((key, v) :: before), stack⟩

/-- Reads the first token of a value. -/
def startValue (stack : List Frame) : Token → Option Builder
  | .openArray => some ⟨.firstItem, stack⟩
  | .openObject => some ⟨.firstKey, stack⟩
  | .bare text => (scalar? text).map fun v => complete v stack
  | .quoted literal => if isLiteral literal then some (complete (.string literal) stack) else none
  | _ => none

/-- Reads a key, after the given members. -/
def startMember (members : List (List Char × Json)) (stack : List Frame) : Token → Option Builder
  | .quoted literal => if isLiteral literal then some ⟨.colon members literal, stack⟩ else none
  | _ => none

/-- Reads one token. -/
def step (b : Builder) (t : Token) : Option Builder :=
  match b.phase, t with
  | .value, t => startValue b.stack t
  | .firstItem, .closeArray => some (complete (.array []) b.stack)
  | .firstItem, t => startValue (.item [] :: b.stack) t
  | .afterItem items, .comma => some ⟨.value, .item items :: b.stack⟩
  | .afterItem items, .closeArray => some (complete (.array items.reverse) b.stack)
  | .firstKey, .closeObject => some (complete (.object []) b.stack)
  | .firstKey, t => startMember [] b.stack t
  | .key members, t => startMember members b.stack t
  | .colon members key, .colon => some ⟨.value, .member members key :: b.stack⟩
  | .afterMember members, .comma => some ⟨.key members, b.stack⟩
  | .afterMember members, .closeObject => some (complete (.object members.reverse) b.stack)
  | _, _ => none

/-- The document, once it is complete. -/
def finish (b : Builder) : Option Json :=
  match b.phase with
  | .done document => some document
  | _ => none

end Builder

/-- The document that a token sequence spells. -/
def build (tokens : List Token) : Option Json :=
  (tokens.foldlM Builder.step ⟨.value, []⟩).bind Builder.finish

/-- The document that a text spells. -/
def parse (text : String) : Option Json := (scan text.toList).bind build

/-! ### Records

A record is written as an object whose members are named, or as an array of its
fields in order.  Reading opens arrays and objects to a limited depth; what is
skipped is not opened. -/

/-- The deepest nesting of arrays and objects that is read. -/
def depthLimit : Nat := 127

/-- The items of an array, and the depth left inside it. -/
def items? : Nat → Json → Option (Nat × List Json)
  | depth + 1, .array items => some (depth, items)
  | _, _ => none

/-- The members of an object under the names they denote. -/
def namedMembers? (members : List (List Char × Json)) : Option (List (String × Json)) :=
  members.mapM fun (key, value) => do
    let name ← unescape? key
    return (String.ofList name, value)

/-- The value of the member called `name`, if there is one; two are refused. -/
def member? (members : List (String × Json)) (name : String) : Option (Option Json) :=
  match members.filter (·.1 == name) with
  | [] => some none
  | [(_, value)] => some (some value)
  | _ => none

/-- The values of the fields called `names`, in that order, and the depth left
inside the record.  Members of other names are skipped, fields may be missing (of an
array, the last ones), and an array holds nothing beyond the fields. -/
def fields? (names : List String) : Nat → Json → Option (Nat × List (Option Json))
  | depth + 1, .object members => do
    let named ← namedMembers? members
    let values ← names.mapM (member? named)
    return (depth, values)
  | depth + 1, .array items =>
    if items.length ≤ names.length then
      some (depth, items.map some ++ List.replicate (names.length - items.length) none)
    else none
  | _, _ => none

/-- Reads a field that takes `default` when it is missing. -/
def fieldOr {α : Type} (default : α) (read : Json → Option α) : Option Json → Option α
  | none => some default
  | some value => read value

/-- Reads an array of values, each with the depth left inside the array. -/
def listOf? {α : Type} (read : Nat → Json → Option α) (depth : Nat) (value : Json) :
    Option (List α) := do
  let (inside, items) ← items? depth value
  items.mapM (read inside)

/-- Reads a count: a natural number of 64 bits. -/
def count? (value : Json) : Option UInt64 := do
  let n ← value.integer?
  if 0 ≤ n ∧ n < UInt64.size then some (UInt64.ofNat n.toNat) else none

end StackCompiler.Json
