import StackCompiler.IR.Pass.TypePropagation
import StackCompiler.Proofs.Code.WellFormed

/-!
# The flow of types

`May f id v` says that a value of the type of `v` may come to be in an operand: it is the
least relation that follows assignments, stores and operations wherever they stand.
`Hinted` code has true hints: the types that it records for temps and variables contain
those that flow there, and a temp with a literal is assigned that literal only.  In
`Guarded` code operations find operands that they are made for, and in `Opened` code
variables are filled before they are read.
-/

namespace StackCompiler

open IR (TypeSet BinOp AssertKind)

/-! ### Types of values -/

namespace Value

variable {v : Value} {s t : TypeSet}

theorem hasType_any (v : Value) :
  v.HasType .any
  := by
  cases v <;> rfl

theorem not_hasType_empty :
  ¬ v.HasType .empty
  := by
  cases v <;> exact nofun

theorem hasType_union_iff :
  v.HasType (s.union t) ↔ v.HasType s ∨ v.HasType t
  := by
  obtain ⟨a, b, c, d, e⟩ := s
  obtain ⟨a', b', c', d', e'⟩ := t
  cases v <;> simp [HasType, TypeSet.contains, TypeSet.union, TypeSet.inter, types, TypeSet.ints,
    TypeSet.bools, TypeSet.nones, TypeSet.strings, TypeSet.objects]

theorem hasType_of_contains (hst : s.contains t = true) (h : v.HasType t) :
  v.HasType s
  := by
  obtain ⟨a, b, c, d, e⟩ := s
  obtain ⟨a', b', c', d', e'⟩ := t
  cases v <;> simp_all [HasType, TypeSet.contains, TypeSet.inter, types, TypeSet.ints,
    TypeSet.bools, TypeSet.nones, TypeSet.strings, TypeSet.objects]

theorem hasType_types (v : Value) :
  v.HasType v.types
  := by
  cases v <;> rfl

theorem hasType_ofConstant (c : Bytecode.Constant) :
  (ofConstant c).HasType (.ofConstant c)
  := by
  rw [← types_ofConstant]
  exact hasType_types _

theorem hasType_ints_iff :
  v.HasType .ints ↔ ∃ n, v = .int n
  := by
  cases v <;> simp [HasType, TypeSet.contains, TypeSet.inter, types, TypeSet.ints,
    TypeSet.bools, TypeSet.nones, TypeSet.strings, TypeSet.objects]

theorem hasType_bools_iff :
  v.HasType .bools ↔ ∃ b, v = .bool b
  := by
  cases v <;> simp [HasType, TypeSet.contains, TypeSet.inter, types, TypeSet.ints,
    TypeSet.bools, TypeSet.nones, TypeSet.strings, TypeSet.objects]

theorem types_ne_empty (v : Value) :
  v.types.isEmpty = false
  := by
  cases v <;> rfl

end Value

namespace IR

namespace BinOp

/-- Whether an operation needs no helper. -/
def isInline : BinOp → Bool
  | add | eq => false
  | _ => true

/-- The demands of which an inline operation needs one to be met by both operands. -/
def wants : BinOp → List AssertKind
  | add | eq => []
  | intAdd | sub | mul | div | gt | geq => [.int]
  | fastEq => [.int, .bool]
  | and | or => [.bool]

/-- An operation accepts two operands that both meet one of the demands that it wants met. -/
theorem accepts_of_wants {op : BinOp} {kind : AssertKind} {l r : Value} (h : kind ∈ op.wants)
    (hl : kind.admits l = true) (hr : kind.admits r = true) :
  op.accepts l r = true
  := by
  have hkind : kind = .int ∨ kind = .bool := by
    cases op <;> simp_all [wants]
  rcases hkind with rfl | rfl <;> cases l <;> cases hl <;> cases r <;> cases hr <;> cases op <;>
    first | rfl | simp [wants] at h

end BinOp

/-- What an instruction copies. -/
def Inst.source? : Inst → Option OperandId
  | assign _ s | fork s _ _ => some s
  | _ => none

/-- An instruction that neither jumps nor can be jumped to. -/
def Inst.IsPlain (inst : Inst) : Prop := inst.target? = none ∧ inst.label? = none

namespace Function

variable {f : Function}

/-! ### Flow -/

/-- An instruction gives an operand a value of the type of another, when its operands may
have the values that `M` says. -/
def Gives (f : Function) (M : OperandId → Value → Prop) : Inst → OperandId → Value → Prop
  | .assign d s, id, v =>
    id = d ∧ (v.HasType (f.sourceTypes [] s) ∨ (f.isTemp s = true ∨ f.isVar s = true) ∧ M s v)
  | .store x s, id, v => id = x ∧ f.isVar x = true ∧ M s v
  | .forceLoad x, id, _ => id = x
  | .fork s a b, id, v => (id = a ∨ id = b) ∧ M s v
  | .binary op d l r, id, v =>
    id = d ∧ ∃ a b, M l a ∧ M r b ∧ v.HasType (op.typesFrom a.types b.types)
  | .unary op d s, id, v => id = d ∧ (∃ a, M s a) ∧ v.HasType op.resultTypes
  | _, _, _ => False

/-- What an instruction gives is monotone in the values that its operands may have. -/
theorem Gives.mono {M M' : OperandId → Value → Prop} (hM : ∀ id v, M id v → M' id v) {inst : Inst}
    {id : OperandId} {v : Value} (h : f.Gives M inst id v) :
  f.Gives M' inst id v
  := by
  cases inst with
  | assign d s => exact ⟨h.1, h.2.imp_right fun ⟨hs, hv⟩ => ⟨hs, hM s v hv⟩⟩
  | store x s => exact ⟨h.1, h.2.1, hM s v h.2.2⟩
  | forceLoad x => exact h
  | fork s a b => exact ⟨h.1, hM s v h.2⟩
  | binary op d l r =>
    obtain ⟨hd, a, b, ha, hb, hv⟩ := h
    exact ⟨hd, a, b, hM l a ha, hM r b hb, hv⟩
  | unary op d s =>
    obtain ⟨hd, ⟨a, ha⟩, hv⟩ := h
    exact ⟨hd, ⟨a, hM s a ha⟩, hv⟩
  | _ => exact h

/-- Parameters may be anything, and what instructions give is allowed for. -/
structure Closed (f : Function) (M : OperandId → Value → Prop) : Prop where
  parameter : ∀ id v, f.isParameter id = true → M id v
  flow : ∀ inst id v, f.Has inst → f.Gives M inst id v → M id v

/-- A value of the type of another may come to be in an operand. -/
def May (f : Function) (id : OperandId) (v : Value) : Prop := ∀ M, f.Closed M → M id v

/-- What an instruction of the code gives, from what may be in its operands, may come to be there.
-/
theorem May.flow {inst : Inst} {id : OperandId} {v : Value} (hi : f.Has inst)
    (h : f.Gives f.May inst id v) :
  f.May id v
  := by
  intro M hM
  exact hM.flow inst id v hi (h.mono fun _ _ hv => hv M hM)

/-- Any value may be in a parameter. -/
theorem May.parameter {id : OperandId} (h : f.isParameter id = true) (v : Value) :
  f.May id v
  := fun _ hM => hM.parameter id v h

/-- What may come to be in an operand comes from outside or from an instruction. -/
theorem May.cases {id : OperandId} {v : Value} (h : f.May id v) :
  f.isParameter id = true ∨ ∃ inst, f.Has inst ∧ f.Gives f.May inst id v
  := by
  apply h fun id v => f.isParameter id = true ∨ ∃ inst, f.Has inst ∧ f.Gives f.May inst id v
  constructor
  · exact fun id v hid => .inl hid
  · intro inst id v hi hg
    right
    refine ⟨inst, hi, hg.mono fun id v hv => ?_⟩
    rcases hv with hid | ⟨inst, hi, hg⟩
    · exact .parameter hid v
    · exact .flow hi hg

/-! ### True hints -/

/-- What an operand is assigned is a literal, or a temp that is known to equal it. -/
def Equals (f : Function) (s : OperandId) (c : Bytecode.Constant) : Prop :=
  f.kind s = .const c ∨ f.isTemp s = true ∧ (f.operand s).constant = some c

/-- The hints of a function are true. -/
structure Hinted (f : Function) : Prop where
  /-- A set of types that says anything contains what flows into the operand. -/
  types : ∀ id, id < f.operands.size → (f.operand id).types = .empty ∨
    ∀ v, f.May id v → v.HasType (f.operand id).types
  /-- A temp with a literal is filled from what equals the literal. -/
  constants : ∀ p i t c, f.fetch p = some i → t ∈ i.defs → (f.operand t).constant = some c →
    ∃ s, i.source? = some s ∧ f.Equals s c
  literal : ∀ id c, id < f.operands.size → f.kind id = .const c → (f.operand id).constant = some c

/-! ### Guarded operations -/

/-- A temp is known to meet a demand at a position: by its types, or because it was checked. -/
def Secured (f : Function) (pos : Nat) (kind : AssertKind) (t : OperandId) : Prop :=
  (∀ v, f.May t v → kind.admits v = true) ∨ ∃ q, q < pos ∧ f.fetch q = some (.assertion kind t)

/-- Operations that need no helper find operands that they are made for. -/
structure Guarded (f : Function) : Prop where
  binary : ∀ p op d l r, f.fetch p = some (.binary op d l r) → op.isInline = true →
    ∃ kind ∈ op.wants, f.Secured p kind l ∧ f.Secured p kind r
  unary : ∀ p op d s, f.fetch p = some (.unary op d s) → f.Secured p op.demands s

/-! ### Variables -/

/-- A variable is read at a position. -/
def LoadsAt (f : Function) (pos : Nat) (x : OperandId) : Prop := ∃ d, f.fetch pos = some (.assign d x)

/-- A variable is filled at a position that no jump goes around. -/
structure OpensAt (f : Function) (pos : Nat) (x : OperandId) : Prop where
  fills : f.fetch pos = some (.forceLoad x) ∨ ∃ s, f.fetch pos = some (.store x s)
  first : ∀ p inst, p ≤ pos → f.fetch p = some inst → inst.IsPlain

/-- There is an instruction where a variable is filled. -/
theorem OpensAt.exists_fetch {pos : Nat} {x : OperandId} (h : f.OpensAt pos x) :
  ∃ inst, f.fetch pos = some inst
  := by
  rcases h.fills with hf | ⟨s, hs⟩
  · exact ⟨_, hf⟩
  · exact ⟨_, hs⟩

/-- Every variable that is read is filled in the code that opens the function. -/
def Opened (f : Function) : Prop :=
  ∀ p x, f.LoadsAt p x → f.isVar x = true → ∃ q, q < p ∧ f.OpensAt q x

end Function

end IR

end StackCompiler
