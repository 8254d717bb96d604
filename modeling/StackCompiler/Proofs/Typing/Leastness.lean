import Mathlib.Order.Bounds.Basic
import StackCompiler.Proofs.Typing.Inference

/-!
# The least types

The types that inference finds are the least that the rules of the instructions allow.  The
rules are stated apart from inference: `Function.Demands` says what an operand has to have
when operands have given types, and `Function.Solves` that all of this is met.  Every rule
is monotone, so types that meet the rules bound each round of inference, and the rounds end
at types that meet them (`isLeast_inferTypes`).  Being least fixes the types whatever the
order of the instructions, so propagation adds the same in any order, and nothing when it
runs again (`propagateTypes_least`).
-/

namespace StackCompiler.IR

variable {id : OperandId} {types : TypeSet}

/-! ### Inclusion of sets of types -/

namespace TypeSet

variable {s t u : TypeSet}

instance : PartialOrder TypeSet where
  le s t := t.contains s = true
  le_refl := contains_refl
  le_trans _ _ _ hst htu := contains_trans htu hst
  le_antisymm _ _ hst hts := contains_antisymm hts hst

theorem empty_le (s : TypeSet) :
  empty ≤ s
  := contains_iff.mpr (by simp [empty])

/-- The union of two sets is within every set that both are within. -/
theorem union_le (hs : s ≤ u) (ht : t ≤ u) :
  s.union t ≤ u
  := by
  obtain ⟨h₁, h₂, h₃, h₄, h₅⟩ := contains_iff.mp hs
  obtain ⟨k₁, k₂, k₃, k₄, k₅⟩ := contains_iff.mp ht
  simp only [LE.le, contains_iff, union, Bool.or_eq_true]
  exact ⟨Or.rec h₁ k₁, Or.rec h₂ k₂, Or.rec h₃ k₃, Or.rec h₄ k₄, Or.rec h₅ k₅⟩

theorem union_eq_left (h : t ≤ s) :
  s.union t = s
  := le_antisymm (union_le le_rfl h) (contains_union s t).1

/-- The sets within the integers are the empty one and the integers. -/
theorem eq_empty_or_ints (h : s ≤ ints) :
  s = empty ∨ s = ints
  := by
  obtain ⟨a, b, c, d, e⟩ := s
  obtain ⟨-, h₂, h₃, h₄, h₅⟩ := contains_iff.mp h
  have hfalse : ∀ x : Bool, (x = true → false = true) → x = false := by decide
  cases hfalse _ h₂
  cases hfalse _ h₃
  cases hfalse _ h₄
  cases hfalse _ h₅
  cases a
  · exact .inl rfl
  · exact .inr rfl

end TypeSet

/-- More types of operands give more types of a result. -/
theorem BinOp.typesFrom_le (op : BinOp) {l l' r r' : TypeSet} (hl : l ≤ l') (hr : r ≤ r') :
  op.typesFrom l r ≤ op.typesFrom l' r'
  := by
  by_cases hop : op = .add
  · subst hop
    -- An addition of unknown operands gives nothing.
    by_cases hempty : l = .empty ∨ r = .empty
    · have hnone : BinOp.add.typesFrom l r = .empty := by
        rcases hempty with rfl | rfl <;> simp [typesFrom, TypeSet.isEmpty]
      rw [hnone]
      exact TypeSet.empty_le _
    rw [not_or] at hempty
    have hl' : l' ≠ .empty := fun h => hempty.1 (le_antisymm (h ▸ hl) (TypeSet.empty_le l))
    have hr' : r' ≠ .empty := fun h => hempty.2 (le_antisymm (h ▸ hr) (TypeSet.empty_le r))
    by_cases hints : l' = .ints ∧ r' = .ints
    · obtain ⟨rfl, rfl⟩ := hints
      rw [(TypeSet.eq_empty_or_ints hl).resolve_left hempty.1,
        (TypeSet.eq_empty_or_ints hr).resolve_left hempty.2]
    · have hboth : BinOp.add.typesFrom l' r' = TypeSet.ints.union .strings := by
        simp [typesFrom, TypeSet.isEmpty, hl', hr', hints]
      rw [hboth]
      simp only [typesFrom, TypeSet.isEmpty, hempty.1, hempty.2, decide_false, Bool.or_self,
        Bool.false_eq_true, if_false]
      split
      · exact (TypeSet.contains_union _ _).1
      · exact le_rfl
  · cases op <;> first | exact absurd rfl hop | exact le_rfl

/-! ### Maps -/

namespace TypeMap

variable {m : TypeMap} {σ : OperandId → TypeSet}

theorem types_cons (id other : OperandId) (types : TypeSet) (m : TypeMap) :
  TypeMap.types ((id, types) :: m) other = if other = id then types else m.types other
  := by
  unfold TypeMap.types
  rw [Table.at?_cons]
  split <;> rfl

/-- An operand without an entry has no types. -/
theorem types_of_not_mem (h : id ∉ m.map Prod.fst) :
  m.types id = .empty
  := by
  unfold TypeMap.types
  rw [Table.at?_eq_none h]
  rfl

/-- An operand has the types of its entry if no operand has two entries. -/
theorem types_of_mem (hm : (m.map Prod.fst).Nodup) (h : (id, types) ∈ m) :
  m.types id = types
  := by
  unfold TypeMap.types
  rw [Table.at?_of_mem hm h]
  rfl

theorem nodup_add (hm : (m.map Prod.fst).Nodup) (id : OperandId) (types : TypeSet) :
  ((m.add id types).map Prod.fst).Nodup
  := by
  unfold add
  split
  · exact hm
  · exact Table.nodup_put hm id _

theorem nodup_addAll (hm : (m.map Prod.fst).Nodup) (adds : List (OperandId × TypeSet)) :
  ((m.addAll adds).map Prod.fst).Nodup
  := by
  induction adds generalizing m with
  | nil => exact hm
  | cons a adds ih => exact ih (nodup_add hm a.1 a.2)

/-- A map stays below a bound if the types that are added are below it. -/
theorem add_le (hm : m.types ≤ σ) (h : types ≤ σ id) :
  (m.add id types).types ≤ σ
  := by
  intro other
  rw [types_add]
  split
  · rename_i ho
    rw [ho.1]
    exact TypeSet.union_le (hm id) h
  · exact hm other

/-- A map stays below a bound if all types that are added are below it. -/
theorem addAll_le (hm : m.types ≤ σ) {adds : List (OperandId × TypeSet)}
    (h : ∀ id types, (id, types) ∈ adds → types ≤ σ id) :
  (m.addAll adds).types ≤ σ
  := by
  induction adds generalizing m with
  | nil => exact hm
  | cons a adds ih =>
    apply ih (add_le hm (h a.1 a.2 List.mem_cons_self))
    intro id types hmem
    exact h id types (List.mem_cons_of_mem _ hmem)

end TypeMap

namespace Function

variable {f g : Function} {m m' : TypeMap} {σ τ : OperandId → TypeSet}

/-! ### The rules -/

/-- The types that an assignment takes from its source when operands have the types `σ`. -/
def typesOf (f : Function) (σ : OperandId → TypeSet) (src : OperandId) : TypeSet :=
  match f.kind src with
  | .const c => .ofConstant c
  | .temp _ | .var _ => σ src
  | .function _ | .cell _ => .objects
  | .global _ | .contents _ | .retval => .any

/-- The types that an operand has to have when operands have the types `σ`: one rule for
parameters, and one for each instruction that fills an operand. -/
inductive Demands (f : Function) (σ : OperandId → TypeSet) : OperandId → TypeSet → Prop where
  | parameter {x : OperandId} (h : f.isParameter x = true) : Demands f σ x .any
  | forceLoad {x : OperandId} (h : f.Has (.forceLoad x)) : Demands f σ x .any
  | assign {d s : OperandId} (h : f.Has (.assign d s)) : Demands f σ d (f.typesOf σ s)
  | store {x s : OperandId} (h : f.Has (.store x s)) (hx : f.isVar x = true) : Demands f σ x (σ s)
  | forkFirst {s a b : OperandId} (h : f.Has (.fork s a b)) : Demands f σ a (σ s)
  | forkSecond {s a b : OperandId} (h : f.Has (.fork s a b)) : Demands f σ b (σ s)
  | binary {op : BinOp} {d l r : OperandId} (h : f.Has (.binary op d l r)) :
      Demands f σ d (op.typesFrom (σ l) (σ r))
  | unary {op : UnOp} {d s : OperandId} (h : f.Has (.unary op d s)) : Demands f σ d op.resultTypes

/-- Types of operands that are closed under the rules. -/
def Solves (f : Function) (σ : OperandId → TypeSet) : Prop :=
  ∀ id types, f.Demands σ id types → types ≤ σ id

/-- What an assignment takes from its source is monotone in the types of operands. -/
theorem typesOf_le (f : Function) (h : σ ≤ τ) (src : OperandId) :
  f.typesOf σ src ≤ f.typesOf τ src
  := by
  unfold typesOf
  split
  case h_2 | h_3 => exact h src
  all_goals exact le_rfl

/-- Operands with more types demand more. -/
theorem Demands.mono (h : f.Demands σ id types) (hle : σ ≤ τ) :
  ∃ types', types ≤ types' ∧ f.Demands τ id types'
  := by
  cases h with
  | parameter h => exact ⟨_, le_rfl, .parameter h⟩
  | forceLoad h => exact ⟨_, le_rfl, .forceLoad h⟩
  | assign h => exact ⟨_, f.typesOf_le hle _, .assign h⟩
  | store h hx => exact ⟨_, hle _, .store h hx⟩
  | forkFirst h => exact ⟨_, hle _, .forkFirst h⟩
  | forkSecond h => exact ⟨_, hle _, .forkSecond h⟩
  | binary h => exact ⟨_, BinOp.typesFrom_le _ (hle _) (hle _), .binary h⟩
  | unary h => exact ⟨_, le_rfl, .unary h⟩

/-- The rules depend on the kinds of operands and on which instructions there are. -/
theorem Demands.congr (h : f.Demands σ id types) (hkind : ∀ id, g.kind id = f.kind id)
    (hcount : g.parameterCount = f.parameterCount) (hhas : ∀ inst, f.Has inst → g.Has inst) :
  g.Demands σ id types
  := by
  cases h with
  | parameter h => exact .parameter ((isParameter_congr (hkind _) hcount).trans h)
  | forceLoad h => exact .forceLoad (hhas _ h)
  | assign h =>
    rename_i s
    have heq : f.typesOf σ s = g.typesOf σ s := by
      unfold typesOf
      rw [hkind]
    rw [heq]
    exact .assign (hhas _ h)
  | store h hx => exact .store (hhas _ h) ((isVar_congr (hkind _)).trans hx)
  | forkFirst h => exact .forkFirst (hhas _ h)
  | forkSecond h => exact .forkSecond (hhas _ h)
  | binary h => exact .binary (hhas _ h)
  | unary h => exact .unary (hhas _ h)

/-- An instruction adds what the rules demand. -/
theorem demands_of_transfer {inst : Inst} (hi : f.Has inst) (h : (id, types) ∈ f.transfer m inst) :
  f.Demands m.types id types
  := by
  cases inst with
  | assign d s =>
    cases List.mem_singleton.mp h
    exact .assign hi
  | store x s =>
    simp only [transfer, List.mem_ite_nil_right, List.mem_singleton] at h
    obtain ⟨hx, h⟩ := h
    cases h
    exact .store hi hx
  | forceLoad x =>
    cases List.mem_singleton.mp h
    exact .forceLoad hi
  | fork s a b =>
    rcases List.mem_cons.mp h with h | h
    · cases h
      exact .forkFirst hi
    · cases List.mem_singleton.mp h
      exact .forkSecond hi
  | binary op d l r =>
    cases List.mem_singleton.mp h
    exact .binary hi
  | unary op d s =>
    cases List.mem_singleton.mp h
    exact .unary hi
  | _ => cases h

/-- What the rules demand is of a parameter, or an instruction adds it. -/
theorem Demands.cases_transfer (h : f.Demands m.types id types) :
  (f.isParameter id = true ∧ types = .any) ∨ ∃ inst, f.Has inst ∧ (id, types) ∈ f.transfer m inst
  := by
  cases h with
  | parameter h => exact .inl ⟨h, rfl⟩
  | forceLoad h => exact .inr ⟨_, h, List.mem_singleton.mpr rfl⟩
  | assign h => exact .inr ⟨_, h, List.mem_singleton.mpr rfl⟩
  | store h hx =>
    refine .inr ⟨_, h, ?_⟩
    simp [transfer, hx]
  | forkFirst h => exact .inr ⟨_, h, List.mem_cons_self⟩
  | forkSecond h => exact .inr ⟨_, h, List.mem_cons_of_mem _ (List.mem_singleton.mpr rfl)⟩
  | binary h => exact .inr ⟨_, h, List.mem_singleton.mpr rfl⟩
  | unary h => exact .inr ⟨_, h, List.mem_singleton.mpr rfl⟩

/-! ### Rounds that end -/

/-- Rounds of inference from one map end at another: each changes something, up to one that
changes nothing. -/
inductive Settles (f : Function) : TypeMap → TypeMap → Prop where
  | last {m : TypeMap} (h : f.inferRound m = m) : Settles f m m
  | again {m m' : TypeMap} (h : f.inferRound m ≠ m) (rest : Settles f (f.inferRound m) m') :
      Settles f m m'

/-- What every instruction keeps is true of the map at which the rounds end. -/
theorem Settles.invariant {P : TypeMap → Prop} (h : f.Settles m m')
    (hstep : ∀ m inst, f.Has inst → P m → P (f.inferInst m inst)) (hm : P m) :
  P m'
  := by
  induction h with
  | last => exact hm
  | again _ _ ih =>
    apply ih
    -- A round takes in the instructions that are left, one by one.
    apply List.foldlRecOn (motive := P) _ _ hm
    intro m hm inst hinst
    obtain ⟨⟨pos, _⟩, hlive, rfl⟩ := List.mem_map.mp hinst
    exact hstep m _ ⟨pos, mem_live.mp hlive⟩ hm

/-- If the rounds up to a bound end at a map that a further round does not change, they settle at
this map. -/
theorem settles_inferFrom {fuel : Nat}
    (h : f.inferRound (f.inferFrom fuel m) = f.inferFrom fuel m) :
  f.Settles m (f.inferFrom fuel m)
  := by
  induction fuel generalizing m with
  | zero => exact .last h
  | succ fuel ih =>
    by_cases hround : f.inferRound m = m
    · have hlast : f.inferFrom (fuel + 1) m = m := if_pos hround
      rw [hlast]
      exact .last hround
    · have hagain : f.inferFrom (fuel + 1) m = f.inferFrom fuel (f.inferRound m) := if_neg hround
      rw [hagain] at h ⊢
      exact .again hround (ih h)

/-- The rounds of inference end, at the types found. -/
theorem settles_inferTypes (f : Function) :
  f.Settles f.parameterTypes f.inferTypes
  := settles_inferFrom f.inferRound_inferTypes.1

/-- An operand has one entry among the types found. -/
theorem nodup_inferTypes (f : Function) :
  (f.inferTypes.map Prod.fst).Nodup
  := by
  apply f.settles_inferTypes.invariant (P := fun m => (m.map Prod.fst).Nodup)
  · intro m inst _ hm
    exact TypeMap.nodup_addAll hm _
  · exact f.nodup_parameterTypes

/-! ### The least types -/

/-- The types that inference starts from are within all types that meet the rules. -/
theorem parameterTypes_le (h : f.Solves σ) :
  TypeMap.types f.parameterTypes ≤ σ
  := by
  intro id
  by_cases hid : f.isParameter id = true
  · rw [types_parameterTypes hid]
    exact h id _ (.parameter hid)
  · rw [TypeMap.types_of_not_mem]
    · exact TypeSet.empty_le _
    · simp [map_fst_parameterTypes, hid]

/-- Types that meet the rules bound what an instruction makes of a map below them. -/
theorem inferInst_le (h : f.Solves σ) (hm : m.types ≤ σ) {inst : Inst} (hi : f.Has inst) :
  (f.inferInst m inst).types ≤ σ
  := by
  apply TypeMap.addAll_le hm
  intro id types hmem
  obtain ⟨types', hle, hdemands⟩ := (demands_of_transfer hi hmem).mono hm
  exact hle.trans (h id types' hdemands)

/-- The types that inference finds meet the rules. -/
theorem solves_inferTypes (f : Function) :
  f.Solves f.inferTypes.types
  := by
  intro id types h
  obtain ⟨hround, hgrows⟩ := f.inferRound_inferTypes
  rcases h.cases_transfer with ⟨hid, rfl⟩ | ⟨inst, ⟨pos, hpos⟩, hmem⟩
  · have := hgrows id
    rwa [types_parameterTypes hid] at this
  · refine contains_of_foldl (f.live.map (·.2)) ?_ ?_ hmem
    · intro id
      exact congrArg (TypeMap.types · id) hround
    · exact List.mem_map.mpr ⟨(pos, inst), mem_live.mpr hpos, rfl⟩

/-- The types found are the least that meet the rules. -/
theorem isLeast_inferTypes (f : Function) :
  IsLeast {σ | f.Solves σ} f.inferTypes.types
  := by
  refine ⟨f.solves_inferTypes, ?_⟩
  intro σ hσ
  apply f.settles_inferTypes.invariant (P := fun m => m.types ≤ σ)
  · exact fun m inst hi hm => inferInst_le hσ hm hi
  · exact parameterTypes_le hσ

/-- Functions with the same rules have the same types found. -/
theorem types_inferTypes_congr (hkind : ∀ id, g.kind id = f.kind id)
    (hcount : g.parameterCount = f.parameterCount) (hhas : ∀ inst, g.Has inst ↔ f.Has inst) :
  g.inferTypes.types = f.inferTypes.types
  := by
  have hsolves : {σ | g.Solves σ} = {σ | f.Solves σ} := by
    ext σ
    constructor
    · exact fun h id types hd => h id types (hd.congr hkind hcount fun inst => (hhas inst).mpr)
    · exact fun h id types hd =>
        h id types (hd.congr (fun id => (hkind id).symm) hcount.symm fun inst => (hhas inst).mp)
  exact (hsolves ▸ g.isLeast_inferTypes).unique f.isLeast_inferTypes

/-- Inference finds the same types for functions with the same code. -/
theorem SameCode.types_inferTypes (h : f.SameCode g) :
  g.inferTypes.types = f.inferTypes.types
  := by
  apply types_inferTypes_congr h.kind_eq h.parameterCount_eq
  intro inst
  simp only [Has, h.fetch_eq]

/-! ### The hints after propagation -/

/-- The types added are united with those known before. -/
theorem types_withTypes (f : Function) (hm : (m.map Prod.fst).Nodup) (hid : id < f.operands.size) :
  ((f.withTypes m).operand id).types = (f.operand id).types.union (m.types id)
  := by
  induction m generalizing f with
  | nil => exact (TypeSet.union_eq_left (TypeSet.empty_le _)).symm
  | cons a m ih =>
    rw [List.map_cons, List.nodup_cons] at hm
    have hstep : f.withTypes (a :: m) = (f.addTypes a.1 a.2).withTypes m := rfl
    rw [hstep, ih _ hm.2 (by rwa [size_addTypes]), operand_addTypes, TypeMap.types_cons]
    by_cases ha : id = a.1
    · -- The operand has no second entry, so the rest adds nothing to it.
      rw [if_pos ⟨ha, ha ▸ hid⟩, if_pos ha, TypeMap.types_of_not_mem (ha ▸ hm.1), ← ha]
      exact TypeSet.union_eq_left (TypeSet.empty_le _)
    · rw [if_neg fun h => ha h.1, if_neg ha]

/-- Adding types that an operand has changes nothing. -/
theorem addTypes_eq_self (h : id < f.operands.size → types ≤ (f.operand id).types) :
  f.addTypes id types = f
  := by
  have hoperands : f.operands.modify id (fun o => { o with types := o.types.union types })
      = f.operands := by
    apply Array.ext
    · exact Array.size_modify
    · intro i hi hi'
      rw [Array.getElem_modify]
      split
      · rename_i heq
        subst heq
        have := h hi'
        simp only [operand, Array.getD_eq_getD_getElem?, Array.getElem?_eq_getElem hi',
          Option.getD_some] at this
        rw [TypeSet.union_eq_left this]
      · rfl
  unfold addTypes modify
  rw [hoperands]

/-- Adding types that are known changes nothing. -/
theorem withTypes_eq_self
    (h : ∀ id types, (id, types) ∈ m → id < f.operands.size → types ≤ (f.operand id).types) :
  f.withTypes m = f
  := by
  induction m with
  | nil => rfl
  | cons a m ih =>
    have hstep : f.withTypes (a :: m) = (f.addTypes a.1 a.2).withTypes m := rfl
    rw [hstep, addTypes_eq_self (h a.1 a.2 List.mem_cons_self)]
    exact ih fun id types hmem => h id types (List.mem_cons_of_mem _ hmem)

/-- The types of operands that know the types found stay when types are found again. -/
theorem SameCode.withTypes_eq_self (same : f.SameCode g)
    (h : ∀ id, id < f.operands.size → f.inferTypes.types id ≤ (g.operand id).types) :
  g.withTypes g.inferTypes = g
  := by
  apply IR.Function.withTypes_eq_self
  intro id types hmem hid
  rw [← TypeMap.types_of_mem g.nodup_inferTypes hmem, same.types_inferTypes]
  exact h id (same.size_eq ▸ hid)

/-- Copying the constant of an assignment changes no types. -/
theorem types_copyConstant (f : Function) (inst : Inst) (id : OperandId) :
  ((f.copyConstant inst).operand id).types = (f.operand id).types
  := by
  have hkeep : ∀ d c, ((f.modify d fun o => { o with constant := c }).operand id).types
      = (f.operand id).types := by
    intro d c
    rw [operand_modify]
    split
    · rename_i h
      rw [h.1]
    · rfl
  cases inst with
  | assign d s =>
    unfold copyConstant
    simp only
    split
    · split
      · exact hkeep d _
      · exact hkeep d _
      · rfl
    · rfl
  | _ => rfl

/-- Copying the constants of assignments changes no types. -/
theorem types_copyConstants (f : Function) (insts : List Inst) (id : OperandId) :
  ((insts.foldl copyConstant f).operand id).types = (f.operand id).types
  := by
  induction insts generalizing f with
  | nil => rfl
  | cons i insts ih => exact (ih _).trans (f.types_copyConstant i id)

/-- One function is another with its instructions in some order. -/
structure Reorders (f g : Function) : Prop where
  operands : g.operands = f.operands
  parameterCount : g.parameterCount = f.parameterCount
  live : (g.live.map (·.2)).Perm (f.live.map (·.2))

theorem mem_map_live {inst : Inst} :
  inst ∈ f.live.map (·.2) ↔ f.Has inst
  := by
  simp [Has, mem_live]

/-- Inference finds the same types if the instructions are in another order. -/
theorem Reorders.types_inferTypes (h : f.Reorders g) :
  g.inferTypes.types = f.inferTypes.types
  := by
  refine types_inferTypes_congr ?_ h.parameterCount ?_
  · intro id
    unfold kind operand
    rw [h.operands]
  · intro inst
    rw [← mem_map_live, h.live.mem_iff, mem_map_live]

end Function

/-- Propagation unites the types of each operand with the types found. -/
theorem propagateTypes_types (s : State) :
  ∃ f, propagateTypes s = .ok { s with func := f } ∧ s.func.SameCode f ∧
    ∀ id < s.func.operands.size,
      (f.operand id).types = (s.func.operand id).types.union (s.func.inferTypes.types id)
  := by
  have same := s.func.sameCode_withTypes s.func.inferTypes
  refine ⟨_, rfl, same.trans (Function.sameCode_copyConstants ..), ?_⟩
  intro id hid
  rw [Function.types_copyConstants]
  exact s.func.types_withTypes s.func.nodup_inferTypes hid

/-- The rounds of inference end at the least types that the rules allow.  Propagation unites
the types of operands with them, in whatever order the instructions are, and neither the
function with the types added nor the one that propagation gives gets any more types when
types are found and added again. -/
theorem propagateTypes_least (s : State) :
  s.func.Settles s.func.parameterTypes s.func.inferTypes ∧
  IsLeast {σ | s.func.Solves σ} s.func.inferTypes.types ∧
  ∃ f, propagateTypes s = .ok { s with func := f } ∧
    (∀ id < s.func.operands.size,
      (f.operand id).types = (s.func.operand id).types.union (s.func.inferTypes.types id)) ∧
    (∀ t : State, s.func.Reorders t.func → ∃ g, propagateTypes t = .ok { t with func := g } ∧
      ∀ id < s.func.operands.size, (g.operand id).types = (f.operand id).types) ∧
    (let typed := s.func.withTypes s.func.inferTypes
     typed.withTypes typed.inferTypes = typed) ∧
    f.withTypes f.inferTypes = f
  := by
  obtain ⟨f, hf, same, htypes⟩ := propagateTypes_types s
  refine ⟨s.func.settles_inferTypes, s.func.isLeast_inferTypes, f, hf, htypes, ?_, ?_, ?_⟩
  · intro t ht
    obtain ⟨g, hg, -, htypes'⟩ := propagateTypes_types t
    refine ⟨g, hg, ?_⟩
    intro id hid
    rw [htypes id hid, htypes' id (ht.operands ▸ hid), ht.types_inferTypes]
    unfold Function.operand
    rw [ht.operands]
  · apply (s.func.sameCode_withTypes _).withTypes_eq_self
    intro id hid
    rw [s.func.types_withTypes s.func.nodup_inferTypes hid]
    exact (TypeSet.contains_union _ _).2
  · apply same.withTypes_eq_self
    intro id hid
    rw [htypes id hid]
    exact (TypeSet.contains_union _ _).2

/-- A loop that counts up: a variable is set to zero and then increased again and again. -/
def Function.counter : Function where
  name := "f"
  operands := #[.ofKind (.var 0), .ofKind (.temp 0), .ofKind (.temp 1), .ofKind (.temp 2),
    .ofKind (.temp 3), .ofKind (.const (.integer 0)), .ofKind (.const (.integer 1))]
  code := #[.assign 1 5, .store 0 1, .label 0, .assign 2 0, .assign 3 6, .binary .add 4 2 3,
    .store 0 4, .jump 0]
  labels := [(0, 2)]

/-- The variable of a loop that counts up is an integer, also when the loop is read from its end. -/
theorem propagateTypes_least_counter :
  ∃ f g, propagateTypes ⟨.counter, { options := {} }⟩ = .ok ⟨f, { options := {} }⟩ ∧
    propagateTypes ⟨{ Function.counter with code := Function.counter.code.reverse }, { options := {} }⟩
      = .ok ⟨g, { options := {} }⟩ ∧
    (f.operand 0).types = .ints ∧ (g.operand 0).types = .ints ∧ (g.operand 4).types = .ints
  := by
  have htypes : Function.counter.inferTypes.types 0 = .ints ∧
      Function.counter.inferTypes.types 4 = .ints := by decide +kernel
  obtain ⟨-, -, f, hf, hunion, horder, -⟩ := propagateTypes_least ⟨.counter, { options := {} }⟩
  obtain ⟨g, hg, hsame⟩ := horder
    ⟨{ Function.counter with code := Function.counter.code.reverse }, { options := {} }⟩
    ⟨rfl, rfl, by decide +kernel⟩
  refine ⟨f, g, hf, hg, ?_, ?_, ?_⟩
  · rw [hunion 0 (by decide)]
    exact congrArg _ htypes.1
  · rw [hsame 0 (by decide), hunion 0 (by decide)]
    exact congrArg _ htypes.1
  · rw [hsame 4 (by decide), hunion 4 (by decide)]
    exact congrArg _ htypes.2

end StackCompiler.IR
