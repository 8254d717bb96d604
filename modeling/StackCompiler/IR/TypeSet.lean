import StackCompiler.Bytecode.Function

/-!
# Type sets

A `TypeSet` says which types a value may have at run time.  The empty set says
nothing, and a set of one type proves that type.  Sets grow by `TypeSet.union`.
-/

namespace StackCompiler.IR

/-- A set of runtime types. -/
structure TypeSet where
  int : Bool := false
  bool : Bool := false
  string : Bool := false
  none : Bool := false
  /-- Records, closures and other things on the heap. -/
  object : Bool := false
  deriving DecidableEq, Repr, Inhabited

namespace TypeSet

/-- No type: nothing is known. -/
def empty : TypeSet := {}

/-- Integers only. -/
def ints : TypeSet := { int := true }

/-- Booleans only. -/
def bools : TypeSet := { bool := true }

/-- Strings only. -/
def strings : TypeSet := { string := true }

/-- The absent value only. -/
def nones : TypeSet := { none := true }

/-- Heap objects only. -/
def objects : TypeSet := { object := true }

/-- Every type. -/
def any : TypeSet := ⟨true, true, true, true, true⟩

/-- The types of one set and of the other. -/
def union (s t : TypeSet) : TypeSet :=
  ⟨s.int || t.int, s.bool || t.bool, s.string || t.string, s.none || t.none, s.object || t.object⟩

/-- The types common to two sets. -/
def inter (s t : TypeSet) : TypeSet :=
  ⟨s.int && t.int, s.bool && t.bool, s.string && t.string, s.none && t.none, s.object && t.object⟩

/-- Whether the set holds no type. -/
def isEmpty (s : TypeSet) : Bool := s = empty

/-- Whether every type of `t` is in `s`. -/
def contains (s t : TypeSet) : Bool := s.inter t = t

/-- Whether a value described by `s` may have a type of `t`; the empty set allows any. -/
def mayBe (s t : TypeSet) : Bool := s.isEmpty || !(s.inter t).isEmpty

/-- The type of a constant. -/
def ofConstant : Bytecode.Constant → TypeSet
  | .none => nones
  | .integer _ => ints
  | .string _ => strings
  | .boolean _ => bools

/-- The names of the types in a set. -/
def names (s : TypeSet) : List String :=
  [(s.int, "int"), (s.bool, "bool"), (s.string, "str"), (s.none, "none"), (s.object, "obj")]
    |>.filterMap fun (present, name) => if present then some name else Option.none

/-- The form in which a type set is shown. -/
def display (s : TypeSet) : String := if s.isEmpty then "?" else "|".intercalate s.names

end TypeSet

end StackCompiler.IR
