import StackCompiler.Bytecode.Json
import StackCompiler.Proofs.Json.RoundTrip

/-!
# Functions as documents

A function is read back from the text of its document as long as the text does not open more arrays
and objects at once than the reader allows.  Each part of a function is read back from its document
whenever the depth allowed is at least the depth of that document, and refused otherwise.
-/

namespace StackCompiler

namespace Json

/-- Whether reading gives back `x` from the document written for it, exactly when the depth of the
document is allowed. -/
def Recovers {α : Type} (read : Nat → Json → Option α) (write : α → Json) (x : α) : Prop :=
  ∀ d, read d (write x) = if (write x).depth ≤ d then some x else none

@[simp]
theorem depth_ofString (s : String) :
  (ofString s).depth = 0
  := by
  simp [ofString, depth]

@[simp]
theorem depth_ofNat (n : Nat) :
  (ofNat n).depth = 0
  := by
  simp [ofNat, depth]

@[simp]
theorem depth_ofInt (n : Int) :
  (ofInt n).depth = 0
  := by
  cases n <;> simp [ofInt, depth]

/-! ### Lists -/

/-- Items that are each recovered are recovered together, exactly when the deepest of their
documents is allowed. -/
theorem mapM_eq_of_recovers {α : Type} {read : Nat → Json → Option α} {write : α → Json}
    {xs : List α} (h : ∀ x ∈ xs, Recovers read write x) (d : Nat) :
  (xs.map write).mapM (read d) = if depths (xs.map write) ≤ d then some xs else none
  := by
  induction xs with
  | nil => simp [depths]
  | cons x xs ih =>
    obtain ⟨hx, hxs⟩ := List.forall_mem_cons.mp h
    have hmax : depths (write x :: xs.map write) ≤ d
        ↔ (write x).depth ≤ d ∧ depths (xs.map write) ≤ d := Nat.max_le
    simp only [List.map_cons, List.mapM_cons, hx d, ih hxs, hmax]
    by_cases hd : (write x).depth ≤ d <;> by_cases hds : depths (xs.map write) ≤ d <;>
      simp [hd, hds]

/-- A list is recovered when each of its items is. -/
theorem recovers_array {α : Type} {read : Nat → Json → Option α} {write : α → Json}
    {xs : List α} (h : ∀ x ∈ xs, Recovers read write x) :
  Recovers (listOf? read) (fun xs => .array (xs.map write)) xs
  := by
  intro d
  cases d with
  | zero => simp [listOf?, items?, depth]
  | succ d => simp [listOf?, items?, depth, mapM_eq_of_recovers h d]

/-- A string is recovered at every depth. -/
theorem recovers_ofString (s : String) :
  Recovers (fun _ => text?) ofString s
  := by
  intro d
  exact (text?_ofString s).trans (if_pos (Nat.zero_le d)).symm

/-! ### Records -/

/-- The members of a record are found under their names, which are written with escapes. -/
theorem namedMembers?_record (fields : List (String × Json)) :
  namedMembers? (fields.map fun (name, value) => (escape name.toList, value)) = some fields
  := by
  induction fields with
  | nil => rfl
  | cons field fields ih =>
    rw [namedMembers?, List.map_cons, List.mapM_cons, ← namedMembers?, ih]
    simp [unescape?_escape]

/-- The fields of a record, whatever their names are written as. -/
theorem fields?_record (names : List String) (d : Nat) (fields : List (String × Json)) :
  fields? names (d + 1) (record fields) = (names.mapM (member? fields)).map (d, ·)
  := by
  rw [record, fields?, namedMembers?_record]
  cases h : names.mapM (member? fields) <;> simp [h]

/-- A record is one deeper than the deepest of its members. -/
theorem depth_record (fields : List (String × Json)) :
  (record fields).depth = depths (fields.map (·.2)) + 1
  := by
  rw [record, depth]
  congr 1
  induction fields with
  | nil => rfl
  | cons field fields ih => simp [memberDepths, depths, ih]

/-- A record is a valid document if its members are. -/
theorem valid_record {fields : List (String × Json)} (h : ∀ field ∈ fields, field.2.Valid) :
  (record fields).Valid
  := by
  rw [record, Valid]
  induction fields with
  | nil => simp [AllMembersValid]
  | cons field fields ih =>
    obtain ⟨hfield, hfields⟩ := List.forall_mem_cons.mp h
    exact ⟨isLiteral_escape _, hfield, ih hfields⟩

/-- An array is a valid document if its items are. -/
theorem valid_array {α : Type} {write : α → Json} {xs : List α} (h : ∀ x ∈ xs, (write x).Valid) :
  (array (xs.map write)).Valid
  := by
  rw [Valid]
  induction xs with
  | nil => simp [AllValid]
  | cons x xs ih =>
    obtain ⟨hx, hxs⟩ := List.forall_mem_cons.mp h
    exact ⟨hx, ih hxs⟩

theorem valid_ofString (s : String) :
  (ofString s).Valid
  := by
  rw [ofString, Valid]
  exact isLiteral_escape _

theorem valid_ofNat (n : Nat) :
  (ofNat n).Valid
  := by
  rw [ofNat, Valid]
  exact isNumber_of_isWhole (isWhole_toDigits n)

/-- A number with a sign is a valid document. -/
theorem valid_ofInt (n : Int) :
  (ofInt n).Valid
  := by
  cases n with
  | ofNat n => exact valid_ofNat n
  | negSucc n =>
    rw [ofInt, Valid]
    exact isUnsigned_of_isWhole (isWhole_toDigits (n + 1))

end Json

namespace Bytecode

open Json (Recovers)

/-! ### Constants -/

theorem integer64?_ofInt (n : Int64) :
  integer64? (.ofInt n.toInt) = some n
  := by
  rw [integer64?, Json.integer?_ofInt, Option.bind_eq_bind, Option.bind_some,
    if_pos ⟨n.minValue_le_toInt, n.toInt_le⟩, Int64.ofInt_toInt]

theorem ConstantType.ofText?_name (t : ConstantType) :
  ConstantType.ofText? (.ofString t.name) = some t
  := by
  rw [ofText?, Json.text?_ofString, Option.bind_some]
  cases t <;> decide

/-- A type of constants is read back from its name at every depth. -/
theorem ConstantType.ofJson?_name (t : ConstantType) (d : Nat) :
  ConstantType.ofJson? d (.ofString t.name) = some t
  := by
  rw [← ofText?_name t]
  cases d <;> rfl

/-- The members that a constant is written with. -/
def Constant.fields (c : Constant) : List (String × Json) :=
  ("type", .ofString c.type.name) ::
    match c with
    | none => []
    | integer n => [("value", .ofInt n.toInt)]
    | string s => [("value", .ofString s)]
    | boolean b => [("value", .bool b)]

theorem Constant.toJson_eq (c : Constant) :
  c.toJson = .record c.fields
  := by
  cases c <;> rfl

theorem Constant.depth_toJson (c : Constant) :
  c.toJson.depth = 1
  := by
  rw [toJson_eq, Json.depth_record]
  cases c <;> simp [fields, Json.depths, Json.depth]

/-- A constant is read back from its document exactly when one object is allowed. -/
theorem Constant.recovers (c : Constant) :
  Recovers Constant.ofJson? Constant.toJson c
  := by
  intro d
  rw [depth_toJson, toJson_eq]
  cases d with
  | zero => rfl
  | succ d =>
    rw [if_pos (Nat.le_add_left 1 d), Json.record, ofJson?, Json.namedMembers?_record]
    cases c <;>
      simp [fields, Json.member?, ConstantType.ofJson?_name, Constant.type, ofValue?,
        integer64?_ofInt, Json.text?_ofString, Json.bool?]

/-- The document of a constant is valid. -/
theorem Constant.valid_toJson (c : Constant) :
  c.toJson.Valid
  := by
  rw [toJson_eq]
  apply Json.valid_record
  cases c <;> simp [fields, Json.valid_ofString, Json.valid_ofInt, Json.Valid]

/-! ### Instructions -/

theorem Opcode.ofJson?_mnemonic (op : Opcode) :
  Opcode.ofJson? (.ofString op.mnemonic) = some op
  := by
  rw [ofJson?, Json.text?_ofString, Option.bind_some]
  cases op <;> decide +kernel

/-- The operand of an instruction is read back from its document. -/
theorem operandOfJson?_ofInt (n : Int32) :
  operandOfJson? (.ofInt n.toInt) = some (some n)
  := by
  rw [operandOfJson?, Json.integer?_ofInt, Option.bind_eq_bind, Option.bind_some,
    if_pos ⟨n.minValue_le_toInt, n.toInt_le⟩, Int32.ofInt_toInt]
  cases h : n.toInt <;> simp [Json.ofInt, Json.ofNat]

/-- The members that an instruction is written with. -/
def Instruction.fields (i : Instruction) : List (String × Json) :=
  ("op", .ofString i.op.mnemonic) ::
    match i.operand with
    | none => []
    | some n => [("operand", .ofInt n.toInt)]

theorem Instruction.toJson_eq (i : Instruction) :
  i.toJson = .record i.fields
  := by
  obtain ⟨op, _ | n⟩ := i <;> rfl

theorem Instruction.depth_toJson (i : Instruction) :
  i.toJson.depth = 1
  := by
  rw [toJson_eq, Json.depth_record]
  obtain ⟨op, _ | n⟩ := i <;> simp [fields, Json.depths]

/-- An instruction is read back from its document exactly when one object is allowed. -/
theorem Instruction.recovers (i : Instruction) :
  Recovers Instruction.ofJson? Instruction.toJson i
  := by
  intro d
  rw [depth_toJson, toJson_eq]
  cases d with
  | zero => rfl
  | succ d =>
    rw [if_pos (Nat.le_add_left 1 d), ofJson?, Json.fields?_record]
    obtain ⟨op, _ | n⟩ := i <;>
      simp [fields, Json.member?, Opcode.ofJson?_mnemonic, Json.fieldOr, operandOfJson?_ofInt]

/-- The document of an instruction is valid. -/
theorem Instruction.valid_toJson (i : Instruction) :
  i.toJson.Valid
  := by
  rw [toJson_eq]
  apply Json.valid_record
  obtain ⟨op, _ | n⟩ := i <;> simp [fields, Json.valid_ofString, Json.valid_ofInt]

/-! ### Functions -/

namespace Function

/-- The documents of several functions are those of each of them. -/
theorem toJsons_eq_map (fs : List Function) :
  toJsons fs = fs.map toJson
  := by
  induction fs with
  | nil => rfl
  | cons f fs ih => rw [toJsons, ih, List.map_cons]

/-- The members that a function is written with. -/
def fields (f : Function) : List (String × Json) := [
  ("functions", .array (f.functions.map toJson)),
  ("constants", .array (f.constants.map Constant.toJson)),
  ("parameter_count", .ofNat f.parameterCount.toNat),
  ("local_vars", .array (f.localVars.map .ofString)),
  ("local_ref_vars", .array (f.localRefVars.map .ofString)),
  ("free_vars", .array (f.freeVars.map .ofString)),
  ("names", .array (f.names.map .ofString)),
  ("instructions", .array (f.instructions.map Instruction.toJson))]

/-- A function is written as a record of its members. -/
theorem toJson_eq (f : Function) :
  f.toJson = .record f.fields
  := by
  cases f
  rw [toJson, toJsons_eq_map]
  rfl

/-- A count is read back from its document. -/
theorem count?_ofNat (n : UInt64) :
  Json.count? (.ofNat n.toNat) = some n
  := by
  have hlt : (n.toNat : Int) < UInt64.size := Int.ofNat_lt.mpr n.toNat_lt_size
  rw [Json.count?, Json.integer?_ofNat, Option.bind_eq_bind, Option.bind_some,
    if_pos ⟨Int.natCast_nonneg _, hlt⟩, Int.toNat_natCast, UInt64.ofNat_toNat]

/-- A list of names is read back from its document exactly when one array is allowed. -/
theorem namesOfJson?_array (names : List String) (d : Nat) :
  namesOfJson? d (.array (names.map .ofString))
    = if (Json.array (names.map .ofString)).depth ≤ d then some names else none
  := Json.recovers_array (fun s _ => Json.recovers_ofString s) d

/-- What follows a result that is there under a condition is there under that condition. -/
theorem bind_ite_none {α β : Type} (p : Prop) [Decidable p] (x : α) (k : α → Option β) :
  (if p then some x else none).bind k = if p then k x else none
  := by
  by_cases h : p <;> simp [h]

theorem mapM_member?_fields (f : Function) :
  fieldNames.mapM (Json.member? f.fields) = some (f.fields.map (some ·.2))
  := by
  simp [fieldNames, fields, Json.member?]

/-- A function is recovered from its document if the functions inside it are. -/
theorem recovers_of_functions {f : Function} (h : ∀ g ∈ f.functions, Recovers ofJson? toJson g) :
  Recovers ofJson? toJson f
  := by
  intro d
  rw [toJson_eq, Json.depth_record]
  match d with
  | 0 => rfl
  | 1 =>
    rw [ofJson?, Json.fields?_record, mapM_member?_fields]
    simp [fields, Json.fieldOr, Json.depths, Json.depth]
  | d + 2 =>
    have hfunctions : Json.listOf? (fun _ => ofJson? d) (d + 1) (.array (f.functions.map toJson))
        = if (Json.array (f.functions.map toJson)).depth ≤ d + 1 then some f.functions else none :=
      Json.recovers_array h (d + 1)
    have hconstants : Recovers (Json.listOf? Constant.ofJson?)
        (fun cs => .array (cs.map Constant.toJson)) f.constants :=
      Json.recovers_array fun c _ => c.recovers
    have hinstructions : Recovers (Json.listOf? Instruction.ofJson?)
        (fun is => .array (is.map Instruction.toJson)) f.instructions :=
      Json.recovers_array fun i _ => i.recovers
    rw [ofJson?, Json.fields?_record, mapM_member?_fields]
    simp only [fields, List.map_cons, List.map_nil, Option.map_some, Option.bind_eq_bind,
      Option.bind_some, Option.pure_def, Json.fieldOr, hfunctions, hconstants (d + 1),
      hinstructions (d + 1), count?_ofNat, namesOfJson?_array, bind_ite_none, ← ite_and]
    simp only [Nat.succ_eq_add_one, Json.depths, Json.depth_ofNat, Nat.max_le, Nat.zero_le,
      true_and, and_true, Nat.add_le_add_iff_right]
    congr
    cases f
    rfl

mutual

/-- A function is read back from its document exactly when the depth of the document is allowed. -/
theorem recovers (f : Function) :
  Recovers ofJson? toJson f
  := by
  cases f with
  | mk functions => exact recovers_of_functions (recovers_all functions)

/-- Every one of several functions is recovered from its document. -/
theorem recovers_all (fs : List Function) :
  ∀ f ∈ fs, Recovers ofJson? toJson f
  := by
  cases fs with
  | nil => simp
  | cons f fs => exact List.forall_mem_cons.mpr ⟨recovers f, recovers_all fs⟩

end

mutual

/-- The document of a function is valid. -/
theorem valid_toJson (f : Function) :
  f.toJson.Valid
  := by
  rw [toJson_eq]
  cases f with
  | mk functions =>
    apply Json.valid_record
    have hfunctions := Json.valid_array (valid_toJson_all functions)
    simp [fields, Json.valid_array, Json.valid_ofString, Json.valid_ofNat, Constant.valid_toJson,
      Instruction.valid_toJson, hfunctions]

/-- The documents of several functions are valid. -/
theorem valid_toJson_all (fs : List Function) :
  ∀ f ∈ fs, f.toJson.Valid
  := by
  cases fs with
  | nil => simp
  | cons f fs => exact List.forall_mem_cons.mpr ⟨valid_toJson f, valid_toJson_all fs⟩

end

/-- A function is read back from the text of its document exactly when the text never has more
arrays and objects open at once than the reader allows. -/
theorem parseJson_renderJson (f : Function) :
  parseJson f.renderJson = .ok f ↔ Json.nesting f.renderJson ≤ Json.depthLimit
  := by
  rw [renderJson, parseJson, Json.parse_pretty f.valid_toJson, Json.nesting_pretty f.valid_toJson,
    Option.bind_some, recovers f Json.depthLimit]
  by_cases h : f.toJson.depth ≤ Json.depthLimit <;> simp [h]

end Function

end Bytecode

end StackCompiler
