/-!
# Runtime words

Every runtime value is one 64-bit word.  Its three low bits are the tag and the
rest is the payload.  Integers carry the tag `000` and are stored shifted, so sums
and differences of tagged words are the tagged sums and differences.
`Word.ofInt` and `Word.toInt` move between integers and words, and `Word.wrap` is
the integer that survives the round trip through the 61-bit payload.
-/

namespace StackCompiler

/-- A tagged runtime value. -/
abbrev Word := UInt64

namespace Word

/-- What the tag of a word says about its payload. -/
inductive Tag where
  | integer
  | boolean
  | none
  | pointer
  deriving DecidableEq, Repr

/-- The mask of the three tag bits. -/
def tagMask : Word := 0b111

/-- The payload bit that tells `true` from `false`. -/
def truthBit : Word := 0b1000

/-- The word of `false`. -/
def falseWord : Word := 0b0001

/-- The word of `true`. -/
def trueWord : Word := 0b1001

/-- The word of the absent value. -/
def noneWord : Word := 0b0010

/-- The tag of a word; a tag that is not assigned counts as a heap pointer. -/
def tag (w : Word) : Tag :=
  if w &&& tagMask = 0b000 then .integer
  else if w &&& tagMask = 0b001 then .boolean
  else if w &&& tagMask = 0b010 then .none
  else .pointer

/-- The word of an integer; the three high bits are lost. -/
def ofInt (n : Int64) : Word := (n <<< 3).toUInt64

/-- The payload of a word as a signed integer. -/
def toInt (w : Word) : Int64 := w.toInt64 >>> 3

/-- The word of a boolean. -/
def ofBool (b : Bool) : Word := if b then trueWord else falseWord

/-- The payload of a word as a boolean. -/
def toBool (w : Word) : Bool := w &&& truthBit ≠ 0

/-- An integer cut to the width of the payload. -/
def wrap (n : Int64) : Int64 := (n <<< 3) >>> 3

end Word

end StackCompiler
