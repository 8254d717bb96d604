import StackCompiler.IR.TypeSet
import StackCompiler.Register

/-!
# Operands

An operand is a value or a place that instructions refer to.  Its kind says what it
is, and the rest is what has been found out about it: the types it may have, the
literal it equals, the variable it was read from, its live interval, and the register
it was given.
-/

namespace StackCompiler.IR

open Bytecode (Constant)

/-- The number under which an operand is known in its function. -/
abbrev OperandId := Nat

/-- What an operand is. -/
inductive OperandKind where
  /-- A value of the compiler's own. -/
  | temp (n : Nat)
  /-- A local variable. -/
  | var (n : Nat)
  /-- A global, by its name slot. -/
  | global (n : Nat)
  /-- A closure cell. -/
  | cell (n : Nat)
  /-- What a closure cell holds. -/
  | contents (n : Nat)
  /-- A nested function. -/
  | function (n : Nat)
  /-- A literal. -/
  | const (c : Constant)
  /-- The result of the call just made. -/
  | retval
  deriving DecidableEq, Repr, Inhabited

namespace OperandKind

/-- Whether there is one operand of this kind for each slot, shared by all who name it. -/
def isLocation : OperandKind → Bool
  | global _ | cell _ | contents _ | function _ | retval => true
  | _ => false

/-- A kind written out in full. -/
def describe : OperandKind → String
  | temp n => s!"Temp({n})"
  | var n => s!"Var({n})"
  | global n => s!"Glob({n})"
  | cell n => s!"Ref({n})"
  | contents n => s!"Deref({n})"
  | function n => s!"Function({n})"
  | const .none => "Const(None)"
  | const (.integer n) => s!"Const(Integer({n.toInt}))"
  | const (.string s) => s!"Const(String({Text.quoted s}))"
  | const (.boolean b) => if b then "Const(Boolean(true))" else "Const(Boolean(false))"
  | retval => "RetVal"

end OperandKind

/-- An operand with what is known about it. -/
structure Operand where
  kind : OperandKind
  types : TypeSet := {}
  /-- The literal that the value equals. -/
  constant : Option Constant := none
  /-- The variable that the value was read from. -/
  loadedFrom : Option OperandId := none
  /-- The first position of the live interval. -/
  liveStart : Option Nat := none
  /-- The last position of the live interval. -/
  liveEnd : Option Nat := none
  register : Option Register := none
  deriving DecidableEq, Repr, Inhabited

namespace Operand

/-- An operand of which only the kind is known. -/
def ofKind (kind : OperandKind) : Operand :=
  match kind with
  | .const c => { kind, types := .ofConstant c, constant := some c }
  | _ => { kind }

/-- Whether the operand is a temp. -/
def isTemp (o : Operand) : Bool :=
  match o.kind with
  | .temp _ => true
  | _ => false

/-- Whether the operand is a variable. -/
def isVar (o : Operand) : Bool :=
  match o.kind with
  | .var _ => true
  | _ => false

/-- Whether the value is proved to be an integer. -/
def isInt (o : Operand) : Bool := o.types = .ints

/-- Whether the value is proved to be a boolean. -/
def isBool (o : Operand) : Bool := o.types = .bools

/-- The number of a temp or a variable. -/
def slot? (o : Operand) : Option Nat :=
  match o.kind with
  | .temp n | .var n => some n
  | _ => none

/-- Whether the operand has a live interval. -/
def isLive (o : Operand) : Bool := o.liveStart.isSome

/-- Whether the operand is defined and never read. -/
def isDead (o : Operand) : Bool := o.liveStart.isSome && o.liveEnd.isNone

end Operand

end StackCompiler.IR
