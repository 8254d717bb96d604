import StackCompiler.Bytecode.Function
import StackCompiler.Json.Reader
import StackCompiler.Json.Writer

/-!
# Bytecode as JSON

`Function.toJson` writes a function as a document and `Function.ofJson?` reads one
back.  A function and an instruction are records; a constant is an object with a
`type` and, unless it is `none`, a `value`, or an array of the two.
-/

namespace StackCompiler.Bytecode

/-! ### Constants -/

/-- The types of constants. -/
inductive ConstantType where
  | none
  | integer
  | string
  | boolean
  deriving DecidableEq, Repr

/-- The name of a constant type. -/
def ConstantType.name : ConstantType → String
  | none => "none"
  | integer => "integer"
  | string => "string"
  | boolean => "boolean"

/-- The constant type with the given name. -/
def ConstantType.ofName? (s : String) : Option ConstantType :=
  [none, integer, string, boolean].find? (·.name == s)

/-- Reads the name of a constant type. -/
def ConstantType.ofText? (value : Json) : Option ConstantType := value.text?.bind ofName?

/-- Reads the constant type of an object: its name, or an object whose one key is the
name and whose value is `null`. -/
def ConstantType.ofJson? : Nat → Json → Option ConstantType
  | _ + 1, .object [(key, .null)] => ofText? (.string key)
  | _, value => ofText? value

/-- Reads a 64-bit integer. -/
def integer64? (value : Json) : Option Int64 := do
  let n ← value.integer?
  if Int64.minValue.toInt ≤ n ∧ n ≤ Int64.maxValue.toInt then some (Int64.ofInt n) else none

/-- Reads the value of a constant of the given type; the constant `none` may have
the value `null`. -/
def Constant.ofValue? : ConstantType → Option Json → Option Constant
  | .none, Option.none => some .none
  | .none, some .null => some .none
  | .integer, some value => (integer64? value).map .integer
  | .string, some value => value.text?.map .string
  | .boolean, some value => value.bool?.map .boolean
  | _, _ => Option.none

/-- Reads a constant.  An array gives the type by name only. -/
def Constant.ofJson? : Nat → Json → Option Constant
  | depth + 1, .object members => do
    let named ← Json.namedMembers? members
    let type ← (← Json.member? named "type")
    let value ← Json.member? named "value"
    Constant.ofValue? (← ConstantType.ofJson? depth type) value
  | _ + 1, .array [type, value] => do
    Constant.ofValue? (← ConstantType.ofText? type) (some value)
  | _, _ => Option.none

/-- The type of a constant. -/
def Constant.type : Constant → ConstantType
  | none => .none
  | integer _ => .integer
  | string _ => .string
  | boolean _ => .boolean

/-- The document of a constant. -/
def Constant.toJson (c : Constant) : Json :=
  let type := ("type", Json.ofString c.type.name)
  match c with
  | none => .record [type]
  | integer n => .record [type, ("value", .ofInt n.toInt)]
  | string s => .record [type, ("value", .ofString s)]
  | boolean b => .record [type, ("value", .bool b)]

/-! ### Instructions -/

/-- Reads an opcode by its mnemonic. -/
def Opcode.ofJson? (value : Json) : Option Opcode := value.text?.bind Opcode.ofMnemonic?

/-- Reads an operand: a 32-bit integer, or `null` for none. -/
def operandOfJson? : Json → Option (Option Int32)
  | .null => some none
  | value => do
    let n ← value.integer?
    if Int32.minValue.toInt ≤ n ∧ n ≤ Int32.maxValue.toInt then some (some (Int32.ofInt n)) else none

/-- Reads an instruction. -/
def Instruction.ofJson? (depth : Nat) (value : Json) : Option Instruction := do
  match ← Json.fields? ["op", "operand"] depth value with
  | (_, [some op, operand]) =>
    return ⟨← Opcode.ofJson? op, ← Json.fieldOr none operandOfJson? operand⟩
  | _ => none

/-- The document of an instruction. -/
def Instruction.toJson (i : Instruction) : Json :=
  let op := ("op", Json.ofString i.op.mnemonic)
  match i.operand with
  | none => .record [op]
  | some n => .record [op, ("operand", .ofInt n.toInt)]

/-! ### Functions -/

namespace Function

/-- The names of a function's fields, in order. -/
def fieldNames : List String :=
  ["functions", "constants", "parameter_count", "local_vars", "local_ref_vars", "free_vars",
   "names", "instructions"]

/-- Reads a list of names. -/
def namesOfJson? : Nat → Json → Option (List String) := Json.listOf? fun _ => Json.text?

/-- Reads a function; a missing field takes its default.  Each nested function stands
two levels deeper than the function around it. -/
def ofJson? : Nat → Json → Option Function
  | 0, _ => none
  | depth + 1, value => do
    let functionsOfJson? : Json → Option (List Function) :=
      match depth with
      | 0 => fun _ => none
      | inner + 1 => Json.listOf? (fun _ => ofJson? inner) (inner + 1)
    let (_, values) ← Json.fields? fieldNames (depth + 1) value
    match values with
    | [functions, constants, parameterCount, localVars, localRefVars, freeVars, names,
        instructions] =>
      return {
        functions := ← Json.fieldOr [] functionsOfJson? functions
        constants := ← Json.fieldOr [] (Json.listOf? Constant.ofJson? depth) constants
        parameterCount := ← Json.fieldOr 0 Json.count? parameterCount
        localVars := ← Json.fieldOr [] (namesOfJson? depth) localVars
        localRefVars := ← Json.fieldOr [] (namesOfJson? depth) localRefVars
        freeVars := ← Json.fieldOr [] (namesOfJson? depth) freeVars
        names := ← Json.fieldOr [] (namesOfJson? depth) names
        instructions := ← Json.fieldOr [] (Json.listOf? Instruction.ofJson? depth) instructions }
    | _ => none

/-- Reads a function from the text of a document. -/
def parseJson (text : String) : Except CompileError Function :=
  match (Json.parse text).bind (ofJson? Json.depthLimit) with
  | some f => .ok f
  | none => .error (.badJson "not a document of a bytecode function")

mutual

/-- The document of a function. -/
def toJson : Function → Json
  | ⟨functions, constants, parameterCount, localVars, localRefVars, freeVars, names, instructions⟩ =>
    .record [
      ("functions", .array (toJsons functions)),
      ("constants", .array (constants.map Constant.toJson)),
      ("parameter_count", .ofNat parameterCount.toNat),
      ("local_vars", .array (localVars.map .ofString)),
      ("local_ref_vars", .array (localRefVars.map .ofString)),
      ("free_vars", .array (freeVars.map .ofString)),
      ("names", .array (names.map .ofString)),
      ("instructions", .array (instructions.map Instruction.toJson))]

/-- The documents of functions. -/
def toJsons : List Function → List Json
  | [] => []
  | f :: fs => toJson f :: toJsons fs

end

/-- The text of a function's document. -/
def renderJson (f : Function) : String := f.toJson.pretty

end Function

end StackCompiler.Bytecode
