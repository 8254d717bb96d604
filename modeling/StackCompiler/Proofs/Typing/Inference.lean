import Mathlib.Algebra.GroupWithZero.Nat
import StackCompiler.Proofs.Typing.Preservation

/-!
# Type inference

Rounds of inference let types only grow, and an operand has at most five, so the rounds end
at types that no instruction adds to (`inferRound_inferTypes`).  Such types allow for all
that flows (`May.hasType_inferTypes`), which is why the hints that the pass adds are true.
-/

namespace StackCompiler.IR

open Bytecode (Constant)

variable {id : OperandId} {v : Value}

/-! ### Sets of types -/

namespace TypeSet

variable {s t : TypeSet}

/-- How many types a set has. -/
def card (s : TypeSet) : Nat :=
  s.int.toNat + s.bool.toNat + s.string.toNat + s.none.toNat + s.object.toNat

theorem card_le (s : TypeSet) :
  s.card ≤ 5
  := by
  obtain ⟨a, b, c, d, e⟩ := s
  cases a <;> cases b <;> cases c <;> cases d <;> cases e <;> decide

/-- A set contains another if it has each type that the other has. -/
theorem contains_iff :
  s.contains t = true ↔ (t.int = true → s.int = true) ∧ (t.bool = true → s.bool = true) ∧
    (t.string = true → s.string = true) ∧ (t.none = true → s.none = true) ∧
    (t.object = true → s.object = true)
  := by
  obtain ⟨a, b, c, d, e⟩ := s
  obtain ⟨a', b', c', d', e'⟩ := t
  simp only [contains, inter, mk.injEq, decide_eq_true_eq, Bool.and_eq_right_iff_imp]

theorem contains_refl (s : TypeSet) :
  s.contains s = true
  := contains_iff.mpr ⟨id, id, id, id, id⟩

theorem contains_trans {u : TypeSet} (hst : s.contains t = true) (htu : t.contains u = true) :
  s.contains u = true
  := by
  rw [contains_iff] at *
  obtain ⟨h₁, h₂, h₃, h₄, h₅⟩ := hst
  obtain ⟨k₁, k₂, k₃, k₄, k₅⟩ := htu
  exact ⟨h₁ ∘ k₁, h₂ ∘ k₂, h₃ ∘ k₃, h₄ ∘ k₄, h₅ ∘ k₅⟩

theorem contains_union (s t : TypeSet) :
  (s.union t).contains s = true ∧ (s.union t).contains t = true
  := by
  constructor <;> rw [contains_iff] <;> simp +contextual [union]

/-- Sets of types that contain each other are equal. -/
theorem contains_antisymm (hst : s.contains t = true) (hts : t.contains s = true) :
  s = t
  := by
  rw [contains_iff] at hst hts
  obtain ⟨a, b, c, d, e⟩ := s
  obtain ⟨a', b', c', d', e'⟩ := t
  have hiff : ∀ p q : Bool, (q = true → p = true) → (p = true → q = true) → p = q := by decide
  rw [mk.injEq]
  exact ⟨hiff _ _ hst.1 hts.1, hiff _ _ hst.2.1 hts.2.1, hiff _ _ hst.2.2.1 hts.2.2.1,
    hiff _ _ hst.2.2.2.1 hts.2.2.2.1, hiff _ _ hst.2.2.2.2 hts.2.2.2.2⟩

/-- A set of types has at least as many types as one that it contains. -/
theorem card_le_of_contains (h : s.contains t = true) :
  t.card ≤ s.card
  := by
  have hle : ∀ p q : Bool, (q = true → p = true) → q.toNat ≤ p.toNat := by decide
  obtain ⟨h₁, h₂, h₃, h₄, h₅⟩ := contains_iff.mp h
  have := hle _ _ h₁
  have := hle _ _ h₂
  have := hle _ _ h₃
  have := hle _ _ h₄
  have := hle _ _ h₅
  unfold card
  omega

/-- A set that grows has more types. -/
theorem card_lt_of_contains (h : s.contains t = true) (hne : s ≠ t) :
  t.card < s.card
  := by
  have hle : ∀ p q : Bool, (q = true → p = true) → q.toNat ≤ p.toNat := by decide
  have hback : ∀ p q : Bool, p.toNat ≤ q.toNat → p = true → q = true := by decide
  apply Nat.lt_of_le_of_ne (card_le_of_contains h)
  intro heq
  apply hne
  apply contains_antisymm h
  obtain ⟨h₁, h₂, h₃, h₄, h₅⟩ := contains_iff.mp h
  have := hle _ _ h₁
  have := hle _ _ h₂
  have := hle _ _ h₃
  have := hle _ _ h₄
  have := hle _ _ h₅
  unfold card at heq
  rw [contains_iff]
  exact ⟨hback _ _ (by omega), hback _ _ (by omega), hback _ _ (by omega), hback _ _ (by omega),
    hback _ _ (by omega)⟩

end TypeSet

/-! ### Growing maps -/

namespace TypeMap

variable {m m' : TypeMap}

/-- One map has every type that another has. -/
def Grows (m m' : TypeMap) : Prop := ∀ id, (m'.types id).contains (m.types id) = true

theorem Grows.refl (m : TypeMap) :
  m.Grows m
  := fun _ => TypeSet.contains_refl _

theorem Grows.trans {m'' : TypeMap} (h : m.Grows m') (h' : m'.Grows m'') :
  m.Grows m''
  := fun id => TypeSet.contains_trans (h' id) (h id)

/-- Adding types to `id` changes the types of `id` to the union, if something is new, and no
others. -/
theorem types_add (m : TypeMap) (id other : OperandId) (types : TypeSet) :
  (m.add id types).types other
    = if other = id ∧ (m.types id).contains types = false then (m.types id).union types
      else m.types other
  := by
  by_cases hc : (m.types id).contains types = true
  · simp [add, hc]
  · have hput : TypeMap.types (m.put id ((m.types id).union types)) other
        = ((m.put id ((m.types id).union types)).at? other).getD .empty := rfl
    unfold add
    rw [if_neg hc, hput, Table.at?_put]
    by_cases ho : other = id
    · rw [if_pos ho, if_pos ⟨ho, by simpa using hc⟩]
      rfl
    · rw [if_neg ho, if_neg fun h => ho h.1]
      rfl

/-- Adding types to an operand only lets the map grow. -/
theorem grows_add (m : TypeMap) (id : OperandId) (types : TypeSet) :
  m.Grows (m.add id types)
  := by
  intro other
  rw [types_add]
  split
  · rename_i h
    rw [h.1]
    exact (TypeSet.contains_union _ _).1
  · exact TypeSet.contains_refl _

/-- What is added is there. -/
theorem contains_add (m : TypeMap) (id : OperandId) (types : TypeSet) :
  ((m.add id types).types id).contains types = true
  := by
  rw [types_add]
  split
  · exact (TypeSet.contains_union _ _).2
  · rename_i h
    simpa using h

/-- Adding types changes nothing, or an operand has more. -/
theorem add_cases (m : TypeMap) (id : OperandId) (types : TypeSet) :
  m.add id types = m ∨ (m.types id).card < ((m.add id types).types id).card
  := by
  by_cases hc : (m.types id).contains types = true
  · left
    unfold add
    rw [if_pos hc]
  · right
    apply TypeSet.card_lt_of_contains (m.grows_add id types id)
    intro heq
    have := m.contains_add id types
    rw [heq] at this
    exact hc this

/-- Adds types to several operands. -/
def addAll (m : TypeMap) (adds : List (OperandId × TypeSet)) : TypeMap :=
  adds.foldl (fun m (id, types) => m.add id types) m

/-- Adding types to several operands only lets the map grow. -/
theorem grows_addAll (m : TypeMap) (adds : List (OperandId × TypeSet)) :
  m.Grows (m.addAll adds)
  := by
  induction adds generalizing m with
  | nil => exact Grows.refl m
  | cons a adds ih => exact (m.grows_add a.1 a.2).trans (ih _)

/-- After types are added to several operands, each of them has what was added to it. -/
theorem contains_addAll {adds : List (OperandId × TypeSet)} {types : TypeSet} (h : (id, types) ∈ adds) :
  ((m.addAll adds).types id).contains types = true
  := by
  induction adds generalizing m with
  | nil => cases h
  | cons a adds ih =>
    rcases List.mem_cons.mp h with rfl | h
    · exact TypeSet.contains_trans (grows_addAll _ adds id) (m.contains_add id types)
    · exact ih h

/-- Adding types to several operands changes nothing, or gives one of them more types than it had.
-/
theorem addAll_cases (m : TypeMap) (adds : List (OperandId × TypeSet)) :
  m.addAll adds = m ∨ ∃ id ∈ adds.map Prod.fst, (m.types id).card < ((m.addAll adds).types id).card
  := by
  induction adds generalizing m with
  | nil => exact .inl rfl
  | cons a adds ih =>
    have hstep : m.addAll (a :: adds) = (m.add a.1 a.2).addAll adds := rfl
    rw [hstep]
    rcases m.add_cases a.1 a.2 with heq | hlt
    · rw [heq]
      rcases ih m with h | ⟨id, hid, h⟩
      · exact .inl h
      · exact .inr ⟨id, List.mem_cons_of_mem _ hid, h⟩
    · right
      refine ⟨a.1, List.mem_cons_self, Nat.lt_of_lt_of_le hlt ?_⟩
      exact TypeSet.card_le_of_contains (grows_addAll _ adds a.1)

end TypeMap

/-! ### Rounds -/

namespace Function

variable {f : Function} {m : TypeMap}

/-- The operands that an instruction adds types to. -/
def receivers (f : Function) (inst : Inst) : List OperandId := (f.transfer [] inst).map Prod.fst

/-- Which operands an instruction adds types to does not depend on the types known so far. -/
theorem map_fst_transfer (m : TypeMap) (inst : Inst) :
  (f.transfer m inst).map Prod.fst = f.receivers inst
  := by
  cases inst with
  | store x s => by_cases hx : f.isVar x = true <;> simp [receivers, transfer, hx]
  | _ => rfl

theorem length_receivers_le (f : Function) (inst : Inst) :
  (f.receivers inst).length ≤ 2
  := by
  cases inst with
  | store x s => by_cases hx : f.isVar x = true <;> simp [receivers, transfer, hx]
  | _ => simp [receivers, transfer]

/-- What an instruction adds depends on the types of operands only. -/
theorem transfer_congr {m m' : TypeMap} (h : ∀ id, m'.types id = m.types id) (inst : Inst) :
  f.transfer m' inst = f.transfer m inst
  := by
  cases inst with
  | assign d s =>
    simp only [transfer, sourceTypes]
    split <;> simp [h]
  | _ => simp [transfer, h]

/-- A round of inference over instructions only lets types grow. -/
theorem grows_infer (f : Function) (insts : List Inst) (m : TypeMap) :
  m.Grows (insts.foldl f.inferInst m)
  := by
  induction insts generalizing m with
  | nil => exact .refl m
  | cons i insts ih => exact (m.grows_addAll (f.transfer m i)).trans (ih _)

/-- A round changes nothing, or an operand has more types after it. -/
theorem infer_cases {insts : List Inst} (m : TypeMap) :
  insts.foldl f.inferInst m = m ∨
    ∃ id ∈ insts.flatMap f.receivers, (m.types id).card < ((insts.foldl f.inferInst m).types id).card
  := by
  induction insts generalizing m with
  | nil => exact .inl rfl
  | cons i insts ih =>
    rw [List.foldl_cons, List.flatMap_cons]
    have hinst : f.inferInst m i = m.addAll (f.transfer m i) := rfl
    rcases m.addAll_cases (f.transfer m i) with heq | ⟨id, hid, hlt⟩
    · rw [hinst, heq]
      rcases ih m with h | ⟨id, hid, h⟩
      · exact .inl h
      · exact .inr ⟨id, List.mem_append_right _ hid, h⟩
    · right
      rw [map_fst_transfer] at hid
      refine ⟨id, List.mem_append_left _ hid, Nat.lt_of_lt_of_le hlt ?_⟩
      exact TypeSet.card_le_of_contains (grows_infer f insts _ id)

/-- When a sequence of instructions adds nothing, none of them adds anything. -/
theorem contains_of_foldl (insts : List Inst)
    (h : ∀ id, (insts.foldl f.inferInst m).types id = m.types id) {inst : Inst} (hi : inst ∈ insts)
    {types : TypeSet} (ht : (id, types) ∈ f.transfer m inst) :
  (m.types id).contains types = true
  := by
  induction insts generalizing m with
  | nil => cases hi
  | cons i insts ih =>
    rw [List.foldl_cons] at h
    -- The types stay the same all along, since they only grow.
    have hmid : ∀ id, (f.inferInst m i).types id = m.types id := by
      intro id
      apply TypeSet.contains_antisymm (m.grows_addAll (f.transfer m i) id)
      have := grows_infer f insts (f.inferInst m i) id
      rwa [h] at this
    rcases List.mem_cons.mp hi with rfl | hi
    · have := TypeMap.contains_addAll (m := m) ht
      rwa [← hmid]
    · rw [← transfer_congr hmid] at ht
      rw [← hmid]
      exact ih (fun id => (h id).trans (hmid id).symm) hi ht

/-- How many types operands have. -/
def typeCount (m : TypeMap) (ids : List OperandId) : Nat := (ids.map fun id => (m.types id).card).sum

/-- Operands have five types each at most. -/
theorem typeCount_le (m : TypeMap) (ids : List OperandId) :
  typeCount m ids ≤ 5 * ids.length
  := by
  induction ids with
  | nil => exact Nat.le_refl _
  | cons id ids ih =>
    have := (m.types id).card_le
    simp only [typeCount, List.map_cons, List.sum_cons, List.length_cons] at *
    omega

/-- Operands have no fewer types in a map that has grown. -/
theorem typeCount_le_of_grows {m m' : TypeMap} (h : m.Grows m') (ids : List OperandId) :
  typeCount m ids ≤ typeCount m' ids
  := by
  induction ids with
  | nil => exact Nat.le_refl _
  | cons id ids ih =>
    have := TypeSet.card_le_of_contains (h id)
    simp only [typeCount, List.map_cons, List.sum_cons] at *
    omega

/-- If one of the operands gets more types, they have more types together. -/
theorem typeCount_lt_of_grows {m m' : TypeMap} (h : m.Grows m') {ids : List OperandId} (hid : id ∈ ids)
    (hlt : (m.types id).card < (m'.types id).card) :
  typeCount m ids < typeCount m' ids
  := by
  induction ids with
  | nil => cases hid
  | cons other ids ih =>
    have hle := typeCount_le_of_grows h ids
    have := TypeSet.card_le_of_contains (h other)
    simp only [typeCount, List.map_cons, List.sum_cons] at *
    rcases List.mem_cons.mp hid with rfl | hid
    · omega
    · have := ih hid
      omega

/-- Rounds that go on for long enough end where a round changes nothing. -/
theorem inferRound_inferFrom {fuel : Nat}
    (h : 5 * ((f.live.map (·.2)).flatMap f.receivers).length
      < typeCount m ((f.live.map (·.2)).flatMap f.receivers) + fuel) :
  f.inferRound (f.inferFrom fuel m) = f.inferFrom fuel m ∧ m.Grows (f.inferFrom fuel m)
  := by
  induction fuel generalizing m with
  | zero =>
    have := typeCount_le m ((f.live.map (·.2)).flatMap f.receivers)
    omega
  | succ fuel ih =>
    unfold inferFrom
    simp only
    split
    · exact ⟨‹_›, .refl m⟩
    · rename_i hne
      have hgrows : m.Grows (f.inferRound m) := grows_infer f _ m
      obtain ⟨id, hid, hlt⟩ := (infer_cases m).resolve_left hne
      have := typeCount_lt_of_grows hgrows hid hlt
      obtain ⟨hround, hgrows'⟩ := ih (m := f.inferRound m) (by omega)
      exact ⟨hround, hgrows.trans hgrows'⟩

/-- Instructions add types to two operands each at most. -/
theorem length_flatMap_receivers_le (f : Function) (insts : List Inst) :
  (insts.flatMap f.receivers).length ≤ 2 * insts.length
  := by
  induction insts with
  | nil => exact Nat.le_refl _
  | cons i insts ih =>
    have := f.length_receivers_le i
    rw [List.flatMap_cons, List.length_append, List.length_cons]
    omega

/-- The types found are those that no instruction adds to. -/
theorem inferRound_inferTypes (f : Function) :
  f.inferRound f.inferTypes = f.inferTypes ∧ TypeMap.Grows f.parameterTypes f.inferTypes
  := by
  apply inferRound_inferFrom
  have := f.length_flatMap_receivers_le (f.live.map (·.2))
  rw [List.length_map] at this
  omega

/-! ### The types found allow for what flows -/

/-- A set that has the type of a value is not empty. -/
theorem types_of_hasType (h : v.HasType s) :
  s.isEmpty = false
  := by
  cases hs : s.isEmpty with
  | false => rfl
  | true =>
    have hs' : s = .empty := by simpa [TypeSet.isEmpty] using hs
    rw [hs'] at h
    exact absurd h Value.not_hasType_empty

/-- More types of operands allow for more types of a result. -/
theorem typesFrom_mono {op : BinOp} {a b : Value} (ha : a.HasType s) (hb : b.HasType t)
    (hv : v.HasType (op.typesFrom a.types b.types)) :
  v.HasType (op.typesFrom s t)
  := by
  by_cases hop : op = .add
  · subst hop
    simp only [BinOp.typesFrom, types_of_hasType ha, types_of_hasType hb, Bool.or_self,
      Value.types_ne_empty, Bool.false_eq_true, if_false] at *
    split
    · rename_i hst
      simp only [Bool.and_eq_true, decide_eq_true_eq] at hst
      obtain ⟨rfl, rfl⟩ := hst
      obtain ⟨m, rfl⟩ := Value.hasType_ints_iff.mp ha
      obtain ⟨n, rfl⟩ := Value.hasType_ints_iff.mp hb
      exact hv
    · split at hv
      · exact Value.hasType_union_iff.mpr (.inl hv)
      · exact hv
  · cases op <;> first | exact absurd rfl hop | exact hv

/-- What an instruction gives has a type that the instruction adds. -/
theorem Gives.exists_transfer {inst : Inst} (h : f.Gives (fun id v => v.HasType (m.types id)) inst id v) :
  ∃ types, (id, types) ∈ f.transfer m inst ∧ v.HasType types
  := by
  cases inst with
  | assign d s =>
    obtain ⟨rfl, hv⟩ := h
    refine ⟨_, List.mem_singleton.mpr rfl, ?_⟩
    unfold sourceTypes at *
    rcases hv with hv | ⟨hs, hv⟩
    · split at hv
      · exact hv
      · exact absurd hv Value.not_hasType_empty
      · exact absurd hv Value.not_hasType_empty
      all_goals exact hv
    · rw [isTemp_iff, isVar_iff] at hs
      rcases hs with ⟨n, hn⟩ | ⟨n, hn⟩
      · have hn' : (f.operand s).kind = .temp n := hn
        rw [hn']
        exact hv
      · have hn' : (f.operand s).kind = .var n := hn
        rw [hn']
        exact hv
  | store x s =>
    obtain ⟨rfl, hx, hv⟩ := h
    refine ⟨m.types s, ?_, hv⟩
    simp [transfer, hx]
  | forceLoad x =>
    cases h
    exact ⟨.any, List.mem_singleton.mpr rfl, Value.hasType_any v⟩
  | fork s a b =>
    obtain ⟨hid, hv⟩ := h
    refine ⟨m.types s, ?_, hv⟩
    rcases hid with rfl | rfl <;> simp [transfer]
  | binary op d l r =>
    obtain ⟨rfl, a, b, ha, hb, hv⟩ := h
    exact ⟨_, List.mem_singleton.mpr rfl, typesFrom_mono ha hb hv⟩
  | unary op d s =>
    obtain ⟨rfl, -, hv⟩ := h
    exact ⟨_, List.mem_singleton.mpr rfl, hv⟩
  | _ => cases h

theorem map_fst_parameterTypes (f : Function) :
  f.parameterTypes.map Prod.fst = f.operandIds.filter f.isParameter
  := by
  simp [parameterTypes, Function.comp_def]

theorem nodup_parameterTypes (f : Function) :
  (f.parameterTypes.map Prod.fst).Nodup
  := by
  rw [map_fst_parameterTypes]
  exact List.nodup_range.filter f.isParameter

/-- A parameter starts with every type. -/
theorem types_parameterTypes (h : f.isParameter id = true) :
  TypeMap.types f.parameterTypes id = .any
  := by
  have hlt : id < f.operands.size := by
    by_contra hge
    have hvar := isVar_of_isParameter h
    rw [isVar_of_size_le (Nat.le_of_not_lt hge)] at hvar
    cases hvar
  have hmem : (id, TypeSet.any) ∈ f.parameterTypes := by
    apply List.mem_map_of_mem
    exact List.mem_filter.mpr ⟨List.mem_range.mpr hlt, h⟩
  unfold TypeMap.types
  rw [Table.at?_of_mem f.nodup_parameterTypes hmem]
  rfl

/-- The types found contain those that flow into an operand. -/
theorem May.hasType_inferTypes (h : f.May id v) :
  v.HasType (f.inferTypes.types id)
  := by
  obtain ⟨hround, hgrows⟩ := f.inferRound_inferTypes
  apply h fun id v => v.HasType (f.inferTypes.types id)
  constructor
  · intro id v hid
    have := hgrows id
    rw [types_parameterTypes hid] at this
    exact Value.hasType_of_contains this (Value.hasType_any v)
  · rintro inst id v ⟨p, hp⟩ hgives
    obtain ⟨types, ht, hv⟩ := hgives.exists_transfer
    refine Value.hasType_of_contains (contains_of_foldl (f.live.map (·.2)) ?_ ?_ ht) hv
    · intro id
      exact congrArg (TypeMap.types · id) hround
    · exact List.mem_map.mpr ⟨(p, inst), mem_live.mpr hp, rfl⟩

/-! ### The hints that are added -/

/-- The function with types added to operands. -/
def withTypes (f : Function) (m : TypeMap) : Function := m.foldl (fun f (id, types) => f.addTypes id types) f

/-- Adding types to operands does not touch the code. -/
theorem sameCode_withTypes (f : Function) (m : TypeMap) :
  f.SameCode (f.withTypes m)
  := by
  induction m generalizing f with
  | nil => exact .refl f
  | cons a m ih => exact (f.sameCode_addTypes a.1 a.2).trans (ih _)

theorem operand_addTypes (f : Function) (id other : OperandId) (types : TypeSet) :
  (f.addTypes id types).operand other
    = if other = id ∧ id < f.operands.size then
        { f.operand id with types := (f.operand id).types.union types }
      else f.operand other
  := operand_modify ..

/-- Adding types does not change what is known of constants. -/
theorem constant_withTypes (f : Function) (m : TypeMap) (id : OperandId) :
  ((f.withTypes m).operand id).constant = (f.operand id).constant
  := by
  induction m generalizing f with
  | nil => rfl
  | cons a m ih =>
    refine (ih _).trans ?_
    rw [operand_addTypes]
    split
    · rename_i h
      rw [h.1]
    · rfl

/-- A value that has one of the types of an operand still has one after types are added. -/
theorem hasType_withTypes (f : Function) (m : TypeMap) (h : v.HasType (f.operand id).types) :
  v.HasType ((f.withTypes m).operand id).types
  := by
  induction m generalizing f with
  | nil => exact h
  | cons a m ih =>
    apply ih
    rw [operand_addTypes]
    split
    · rename_i hid
      exact Value.hasType_union_iff.mpr (.inl (hid.1 ▸ h))
    · exact h

/-- A value that has one of the types added to an operand has one of the types of that operand
afterwards. -/
theorem hasType_withTypes_of_mem (f : Function) {m : TypeMap} {types : TypeSet}
    (hid : id < f.operands.size) (hm : (id, types) ∈ m) (h : v.HasType types) :
  v.HasType ((f.withTypes m).operand id).types
  := by
  induction m generalizing f with
  | nil => cases hm
  | cons a m ih =>
    rcases List.mem_cons.mp hm with rfl | hm
    · refine hasType_withTypes (f.addTypes id types) m ?_
      rw [operand_addTypes, if_pos ⟨rfl, hid⟩]
      exact Value.hasType_union_iff.mpr (.inr h)
    · exact ih _ (by rwa [size_addTypes]) hm

/-- In well-formed code with true hints, the hints stay true when the types that inference finds
are added. -/
theorem Hinted.withTypes (hf : f.Hinted) (wf : f.WellFormed) :
  (f.withTypes f.inferTypes).Hinted
  := by
  apply hf.of_sameCode wf (f.sameCode_withTypes _) (f.constant_withTypes _)
  intro id hid
  right
  intro v hv
  have htypes := hv.hasType_inferTypes
  unfold TypeMap.types at htypes
  cases hat : Table.at? f.inferTypes id with
  | none =>
    rw [hat] at htypes
    exact absurd htypes Value.not_hasType_empty
  | some types =>
    rw [hat] at htypes
    exact f.hasType_withTypes_of_mem hid (Table.mem_of_at? hat) htypes

/-- A literal that a temp is assigned becomes known of the temp. -/
theorem Hinted.withConstant (hf : f.Hinted) (wf : f.WellFormed) {p : Nat} {d s : OperandId}
    (hfetch : f.fetch p = some (.assign d s)) (hd : (f.operand d).constant = none)
    (hs : ∀ c, (f.operand s).constant = some c → f.Equals s c) :
  (f.modify d fun o => { o with constant := (f.operand s).constant }).Hinted
  := by
  have same : f.SameCode (f.modify d fun o => { o with constant := (f.operand s).constant }) :=
    sameCode_modify d _ fun _ => rfl
  have hkeep : ∀ id c, (f.operand id).constant = some c →
      ((f.modify d fun o => { o with constant := (f.operand s).constant }).operand id).constant
        = some c := by
    intro id c hc
    rw [operand_modify_of_ne _ ?_, hc]
    rintro rfl
    rw [hd] at hc
    cases hc
  apply hf.change wf (fun id v _ => same.may_iff.mp) (fun id _ => same.kind_eq id)
    fun id c _ => hkeep id c
  · intro id hid
    rw [same.size_eq] at hid
    refine .inl ⟨hid, ?_⟩
    rw [operand_modify]
    split
    · rename_i h
      rw [h.1]
    · rfl
  · intro q i t c hi ht hc
    have hi' : f.fetch q = some i := (same.fetch_eq q).symm.trans hi
    by_cases htd : t = d
    · subst htd
      obtain ⟨-, rfl⟩ := wf.eq_of_defs hfetch hi' (List.mem_singleton.mpr rfl) ht
      rw [operand_modify_self _ ((wf.fits p _ hfetch).def_temp t ht).1] at hc
      exact .inr ⟨s, rfl, (hs c hc).of_kind (same.kind_eq s) (hkeep s c)⟩
    · rw [operand_modify_of_ne _ htd] at hc
      exact .inl ⟨q, i, hi', ht, rfl, hc⟩
  · intro id c hge hid
    rw [same.size_eq] at hid
    exact absurd hid (Nat.not_lt_of_le hge)

/-- Copying the constant of an assignment does not touch the code. -/
theorem sameCode_copyConstant (f : Function) (inst : Inst) :
  f.SameCode (f.copyConstant inst)
  := by
  cases inst with
  | assign d s =>
    unfold copyConstant
    simp only
    split
    · split
      · exact sameCode_modify d _ fun _ => rfl
      · exact sameCode_modify d _ fun _ => rfl
      · exact .refl f
    · exact .refl f
  | _ => exact .refl f

/-- Copying what is known of a constant along an assignment of the code keeps hints true. -/
theorem Hinted.copyConstant (hf : f.Hinted) (wf : f.WellFormed) {inst : Inst} (hi : f.Has inst) :
  (f.copyConstant inst).Hinted
  := by
  cases inst with
  | assign d s =>
    obtain ⟨p, hp⟩ := hi
    have hlt := (wf.fits p _ hp).use_lt s (List.mem_singleton.mpr rfl)
    unfold IR.Function.copyConstant
    simp only
    split
    · rename_i hd
      simp only [Bool.and_eq_true, Option.isNone_iff_eq_none] at hd
      split
      · rename_i c hk
        refine hf.withConstant wf hp hd.2 ?_
        intro c' hc
        rw [hf.literal s c hlt hk] at hc
        cases hc
        exact .inl hk
      · rename_i n hn
        refine hf.withConstant wf hp hd.2 ?_
        intro c hc
        exact .inr ⟨isTemp_iff.mpr ⟨n, hn⟩, hc⟩
      · exact hf
    · exact hf
  | _ => exact hf

/-- Copying the constants of several assignments does not touch the code. -/
theorem sameCode_copyConstants (f : Function) (insts : List Inst) :
  f.SameCode (insts.foldl IR.Function.copyConstant f)
  := by
  induction insts generalizing f with
  | nil => exact .refl f
  | cons i insts ih => exact (f.sameCode_copyConstant i).trans (ih _)

/-- Copying what is known of constants along several assignments of the code keeps hints true. -/
theorem Hinted.copyConstants (hf : f.Hinted) (wf : f.WellFormed) {insts : List Inst}
    (h : ∀ i ∈ insts, f.Has i) :
  (insts.foldl IR.Function.copyConstant f).Hinted
  := by
  induction insts generalizing f with
  | nil => exact hf
  | cons i insts ih =>
    have same := f.sameCode_copyConstant i
    apply ih (hf.copyConstant wf (h i List.mem_cons_self)) (same.keepsOrder wf).wellFormed
    intro j hj
    obtain ⟨p, hp⟩ := h j (List.mem_cons_of_mem _ hj)
    exact ⟨p, (same.fetch_eq p).trans hp⟩

end Function

/-- Propagation finds out true things about operands. -/
theorem propagateTypes_spec {s : State} (wf : s.func.WellFormed) :
  ∃ f, propagateTypes s = .ok { s with func := f } ∧ s.func.SameCode f ∧ (s.func.Hinted → f.Hinted)
  := by
  have same := s.func.sameCode_withTypes s.func.inferTypes
  refine ⟨_, rfl, same.trans (Function.sameCode_copyConstants ..), fun hf => ?_⟩
  apply (hf.withTypes wf).copyConstants (same.keepsOrder wf).wellFormed
  intro i hi
  obtain ⟨⟨p, j⟩, hp, rfl⟩ := List.mem_map.mp hi
  exact ⟨p, Function.mem_live.mp hp⟩

end StackCompiler.IR
