import StackCompiler.IR.Inst

/-!
# Runtime values

A `Value` is what a tagged word stands for.  Integers have the 61 bits that the payload
of a word has, so arithmetic on them wraps around there.  Strings and other heap objects
are told apart because types do.

`Value.ofConstant` is the value of a literal, `Value.types` the set of its one type, and
`BinOp.compute?` and `UnOp.compute?` the results of the inline operations where these
are defined.
-/

namespace StackCompiler

open Bytecode (Constant)
open IR (TypeSet AssertKind BinOp UnOp)

/-- A value at run time. -/
inductive Value where
  | int (n : BitVec 61)
  | bool (b : Bool)
  | none
  | string (s : String)
  /-- A record, a closure, a function or a cell, by its address. -/
  | object (address : Nat)
  deriving DecidableEq, Repr, Inhabited

namespace Value

/-- The value of a literal; the three high bits of an integer are lost. -/
def ofConstant : Constant → Value
  | .none => none
  | .integer n => int (n.toBitVec.setWidth 61)
  | .string s => string s
  | .boolean b => bool b

/-- The set that holds the type of a value only. -/
def types : Value → TypeSet
  | int _ => .ints
  | bool _ => .bools
  | none => .nones
  | string _ => .strings
  | object _ => .objects

/-- The type of a value is in a set. -/
def HasType (v : Value) (s : TypeSet) : Prop := s.contains v.types = true

instance (v : Value) (s : TypeSet) : Decidable (v.HasType s) := inferInstanceAs (Decidable (_ = _))

theorem types_ofConstant (c : Constant) :
  (ofConstant c).types = .ofConstant c
  := by
  cases c <;> rfl

/-- Whether a value lies on the heap and is no string. -/
def isObject : Value → Bool
  | object _ => true
  | _ => false

end Value

/-! ### Inline operations -/

/-- Whether a value meets an assertion. -/
def IR.AssertKind.admits (kind : AssertKind) (v : Value) : Bool :=
  match kind, v with
  | .int, .int _ => true
  | .bool, .bool _ => true
  | .notZero, v => v ≠ .int 0
  | _, _ => false

namespace IR.BinOp

/-- The result of an inline operation; none where the operation is not defined. -/
def compute? (op : BinOp) (l r : Value) : Option Value :=
  match op, l, r with
  | intAdd, .int a, .int b => some (.int (a + b))
  | sub, .int a, .int b => some (.int (a - b))
  | mul, .int a, .int b => some (.int (a * b))
  | div, .int a, .int b => if b = 0 then none else some (.int (a.sdiv b))
  | gt, .int a, .int b => some (.bool (b.slt a))
  | geq, .int a, .int b => some (.bool (b.sle a))
  | fastEq, .int a, .int b => some (.bool (a = b))
  | fastEq, .bool a, .bool b => some (.bool (a = b))
  | and, .bool a, .bool b => some (.bool (a && b))
  | or, .bool a, .bool b => some (.bool (a || b))
  | _, _, _ => none

/-- Whether two values have the types that an inline operation is made for. -/
def accepts (op : BinOp) (l r : Value) : Bool :=
  match op, l, r with
  | intAdd, .int _, .int _ | sub, .int _, .int _ | mul, .int _, .int _ | div, .int _, .int _
  | gt, .int _, .int _ | geq, .int _, .int _ | fastEq, .int _, .int _ => true
  | fastEq, .bool _, .bool _ | and, .bool _, .bool _ | or, .bool _, .bool _ => true
  | _, _, _ => false

/-- An operation with a demand is made for the values that meet it. -/
theorem accepts_eq_admits {op : BinOp} {kind : AssertKind} (h : op.demands? = some kind)
    (l r : Value) :
  op.accepts l r = (kind.admits l && kind.admits r)
  := by
  cases op <;> cases h <;> cases l <;> cases r <;> rfl

/-- Every inline operation gives a result on the types it is made for, but for division by
zero. -/
theorem isSome_compute?_iff {op : BinOp} {l r : Value} :
  (op.compute? l r).isSome = true ↔ op.accepts l r = true ∧ (op = div → r ≠ .int 0)
  := by
  by_cases hdiv : op = div
  · subst hdiv
    cases l <;> cases r <;> simp [accepts, compute?]
  · have heq : (op.compute? l r).isSome = op.accepts l r := by
      cases op <;> cases l <;> cases r <;> first | rfl | exact absurd rfl hdiv
    rw [heq]
    simp [hdiv]

/-- The result of an inline operation has the type that the operation announces. -/
theorem types_of_compute? {op : BinOp} {l r v : Value} (h : op.compute? l r = some v) :
  v.types = op.resultTypes
  := by
  cases op <;> cases l <;> cases r <;> simp [compute?] at h
  case div.int.int => rw [← h.2]; rfl
  all_goals rw [← h]; rfl

end IR.BinOp

namespace IR.UnOp

/-- The result of a unary operation; none where the operation is not defined. -/
def compute? (op : UnOp) (v : Value) : Option Value :=
  match op, v with
  | neg, .int a => some (.int (-a))
  | not, .bool b => some (.bool !b)
  | _, _ => none

/-- What a unary operation computes is of the type of its results. -/
theorem types_of_compute? {op : UnOp} {v w : Value} (h : op.compute? v = some w) :
  w.types = op.resultTypes
  := by
  cases op <;> cases v <;> simp [compute?] at h
  all_goals rw [← h]; rfl

end IR.UnOp

end StackCompiler
