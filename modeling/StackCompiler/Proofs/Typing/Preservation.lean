import StackCompiler.Proofs.Passes.EditStructure

/-!
# Changes keep hints true

A change lets no more flow into an operand than flowed there before (`Edit.may`), so what
was recorded about operands stays true (`Edit.hinted`), operations find operands that they
are made for (`Edit.guarded`) and variables are still filled before they are read
(`Edit.opened`).
-/

namespace StackCompiler.IR

open Bytecode (Constant)

variable {M : OperandId → Value → Prop} {id : OperandId} {v : Value} {c : Constant}

namespace Function

variable {f f' : Function}

/-! ### What depends on kinds only -/

theorem sourceTypes_congr {s : OperandId} (h : f'.kind s = f.kind s) (m : TypeMap) :
  f'.sourceTypes m s = f.sourceTypes m s
  := by
  have h' : (f'.operand s).kind = (f.operand s).kind := h
  unfold sourceTypes
  rw [h']

/-- The types that flow from a constant are those of the constant. -/
theorem sourceTypes_const {s : OperandId} (h : f.kind s = .const c) (m : TypeMap) :
  f.sourceTypes m s = .ofConstant c
  := by
  have h' : (f.operand s).kind = .const c := h
  unfold sourceTypes
  rw [h']

theorem isParameter_congr (h : f'.kind id = f.kind id) (hcount : f'.parameterCount = f.parameterCount) :
  f'.isParameter id = f.isParameter id
  := by
  have h' : (f'.operand id).kind = (f.operand id).kind := h
  unfold isParameter
  rw [h', hcount]

theorem isVar_of_isParameter (h : f.isParameter id = true) :
  f.isVar id = true
  := by
  unfold isParameter at h
  split at h
  · rename_i n hn
    exact isVar_iff.mpr ⟨n, hn⟩
  · cases h

/-- An instruction that was there before gives what it gave. -/
theorem Gives.transport {N : OperandId → Value → Prop} {inst : Inst} (hfits : inst.Fits f)
    (hkind : ∀ id, id < f.operands.size → f'.kind id = f.kind id)
    (hM : ∀ id, id < f.operands.size → ∀ v, M id v → N id v) (h : f'.Gives M inst id v) :
  id < f.operands.size ∧ f.Gives N inst id v
  := by
  have huse := hfits.use_lt
  have hdef : ∀ t ∈ inst.defs, t < f.operands.size := fun t ht => (hfits.def_temp t ht).1
  cases inst with
  | assign d s =>
    obtain ⟨rfl, hv⟩ := h
    have hs := huse s (List.mem_singleton.mpr rfl)
    refine ⟨hdef id (List.mem_singleton.mpr rfl), rfl, ?_⟩
    rw [← sourceTypes_congr (hkind s hs), ← isTemp_congr (hkind s hs), ← isVar_congr (hkind s hs)]
    exact hv.imp_right fun ⟨htemp, hv⟩ => ⟨htemp, hM s hs v hv⟩
  | store x s =>
    obtain ⟨rfl, hx, hv⟩ := h
    have hlt := (hfits.store_place id s rfl).1
    rw [isVar_congr (hkind id hlt)] at hx
    exact ⟨hlt, rfl, hx, hM s (huse s (List.mem_singleton.mpr rfl)) v hv⟩
  | forceLoad x =>
    cases h
    exact ⟨(hfits.load_var id rfl).1, rfl⟩
  | fork s a b =>
    obtain ⟨hid, hv⟩ := h
    exact ⟨hdef id (by simpa [Inst.defs] using hid), hid,
      hM s (huse s (List.mem_singleton.mpr rfl)) v hv⟩
  | binary op d l r =>
    obtain ⟨rfl, a, b, ha, hb, hv⟩ := h
    exact ⟨hdef id (List.mem_singleton.mpr rfl), rfl, a, b,
      hM l (huse l (by simp [Inst.uses])) a ha, hM r (huse r (by simp [Inst.uses])) b hb, hv⟩
  | unary op d s =>
    obtain ⟨rfl, ⟨a, ha⟩, hv⟩ := h
    exact ⟨hdef id (List.mem_singleton.mpr rfl), rfl,
      ⟨a, hM s (huse s (List.mem_singleton.mpr rfl)) a ha⟩, hv⟩
  | _ => cases h

/-- The assignment of a temp `s` gives `d` the values that `s` may have, and gives nothing to
other operands. -/
theorem gives_assign_temp {d s : OperandId} (hs : f.isTemp s = true) :
  f.Gives M (.assign d s) id v ↔ id = d ∧ M s v
  := by
  obtain ⟨n, hn⟩ := isTemp_iff.mp hs
  have hn' : (f.operand s).kind = .temp n := hn
  have hempty : f.sourceTypes [] s = .empty := by
    unfold sourceTypes
    rw [hn']
    rfl
  unfold Gives
  simp [hempty, Value.not_hasType_empty, hs]

/-- What an instruction gives to an operand depends only on the kinds of operands. -/
theorem gives_congr (hkind : ∀ id, f'.kind id = f.kind id) {inst : Inst} :
  f'.Gives M inst id v ↔ f.Gives M inst id v
  := by
  cases inst with
  | assign d s =>
    unfold Gives
    simp only [sourceTypes_congr (hkind s), isTemp_congr (hkind s), isVar_congr (hkind s)]
  | store x s =>
    unfold Gives
    simp only [isVar_congr (hkind x)]
  | _ => rfl

/-- The same instructions over the same operands let the same flow. -/
theorem may_congr (hkind : ∀ id, f'.kind id = f.kind id) (hcount : f'.parameterCount = f.parameterCount)
    (hhas : ∀ i, f'.Has i ↔ f.Has i) :
  f'.May id v ↔ f.May id v
  := by
  have hclosed : ∀ M, f'.Closed M ↔ f.Closed M := by
    intro M
    constructor
    · intro h
      constructor
      · exact fun id v hid => h.parameter id v (by rwa [isParameter_congr (hkind id) hcount])
      · exact fun i id v hi hg => h.flow i id v ((hhas i).mpr hi) ((gives_congr hkind).mpr hg)
    · intro h
      constructor
      · exact fun id v hid => h.parameter id v (by rwa [← isParameter_congr (hkind id) hcount])
      · exact fun i id v hi hg => h.flow i id v ((hhas i).mp hi) ((gives_congr hkind).mp hg)
  unfold May
  simp only [hclosed]

/-- Functions with the same code let the same values flow into operands. -/
theorem SameCode.may_iff (h : f.SameCode f') :
  f'.May id v ↔ f.May id v
  := by
  apply may_congr h.kind_eq h.parameterCount_eq
  intro i
  unfold Has
  simp only [h.fetch_eq]

/-- Compaction does not change which values may flow into an operand. -/
theorem Compacts.may_iff {φ : Nat → Nat} (h : f.Compacts f' φ) :
  f'.May id v ↔ f.May id v
  := by
  apply may_congr h.kind_eq h.parameterCount
  intro i
  constructor
  · rintro ⟨q, hq⟩
    obtain ⟨p, -, hp⟩ := h.exists_of_fetch hq
    exact ⟨p, hp⟩
  · rintro ⟨p, hp⟩
    exact ⟨φ p, (h.keep p i hp).2⟩

/-! ### Less flows after a change -/

/-- What flows into operands after a change flowed into the operands `σ` before, when this
is so of the instructions that are new. -/
theorem InPlace.may (h : f.InPlace f') (wf : f.WellFormed) {σ : OperandId → OperandId}
    (hσ : ∀ id, id < f.operands.size → σ id = id)
    (hview : ∀ p i', f'.fetch p = some i' → f.fetch p = some i' ∨ ∀ id v, f'.Gives (fun id v => f.May (σ id) v) i' id v → f.May (σ id) v)
    (hv : f'.May id v) :
  f.May (σ id) v
  := by
  apply hv fun id v => f.May (σ id) v
  constructor
  · intro id v hid
    rcases Nat.lt_or_ge id f.operands.size with hlt | hge
    · rw [isParameter_congr (h.kind_eq id hlt) h.parameterCount_eq] at hid
      rw [hσ id hlt]
      exact .parameter hid v
    · have := h.new_isVar id hge
      rw [isVar_of_isParameter hid] at this
      cases this
  · rintro i' id v ⟨p, hp⟩ hgives
    rcases hview p i' hp with hi | hnew
    · obtain ⟨hlt, hgives⟩ := hgives.transport (N := f.May) (wf.fits p i' hi) h.kind_eq
        fun id hid v hv => by rwa [hσ id hid] at hv
      rw [hσ id hlt]
      exact .flow ⟨p, hi⟩ hgives
    · exact hnew id v hgives

/-- A change after which every instruction was there before. -/
theorem InPlace.may_of_fetch (h : f.InPlace f') (wf : f.WellFormed)
    (hview : ∀ p i', f'.fetch p = some i' → f.fetch p = some i' ∨ ∀ id v, f'.Gives f.May i' id v → f.May id v)
    (hv : f'.May id v) :
  f.May id v
  := h.may (σ := fun id => id) wf (fun _ _ => rfl) hview hv

/-- What gives a temp something defines it. -/
theorem Gives.mem_defs {inst : Inst} {t : OperandId} (hfits : inst.Fits f) (ht : f.isTemp t = true)
    (h : f.Gives M inst t v) :
  t ∈ inst.defs
  := by
  have hvar := isVar_eq_false ht
  cases inst with
  | assign d s => exact List.mem_singleton.mpr h.1
  | binary op d l r => exact List.mem_singleton.mpr h.1
  | unary op d s => exact List.mem_singleton.mpr h.1
  | fork s a b => simpa [Inst.defs] using h.1
  | store x s =>
    obtain ⟨rfl, hx, -⟩ := h
    rw [hx] at hvar
    cases hvar
  | forceLoad x =>
    cases h
    rw [(hfits.load_var t rfl).2] at hvar
    cases hvar
  | _ => cases h

/-- What flows into a temp comes from a definition. -/
theorem May.of_temp (wf : f.WellFormed) {t : OperandId} (h : f.May t v) (ht : f.isTemp t = true) :
  ∃ p inst, f.fetch p = some inst ∧ t ∈ inst.defs ∧ f.Gives f.May inst t v
  := by
  rcases h.cases with hp | ⟨inst, ⟨p, hp⟩, hgives⟩
  · have hvar := isVar_of_isParameter hp
    rw [isVar_eq_false ht] at hvar
    cases hvar
  · exact ⟨p, inst, hp, hgives.mem_defs (wf.fits p inst hp) ht, hgives⟩

/-- A literal that a temp equals flows into it. -/
theorem Hinted.may_literal (hf : f.Hinted) (wf : f.WellFormed) {p : Nat} {t : OperandId}
    (hread : f.ReadsAt p t) (ht : f.isTemp t = true) (hc : (f.operand t).constant = some c) :
  f.May t (.ofConstant c)
  := by
  -- By induction on the position of the read: what fills the temp is a literal, or a temp
  -- that is read there and equals the same literal.
  induction p using Nat.strongRecOn generalizing t with
  | ind p ih =>
    obtain ⟨q, hq, i, hi, hdef⟩ := wf.defined p t hread ht
    obtain ⟨s, hs, heq⟩ := hf.constants q i t c hi hdef hc
    have huse : s ∈ i.uses := by
      cases i <;> cases hs <;> exact List.mem_singleton.mpr rfl
    have hflow : f.kind s = .const c ∨ f.isTemp s = true ∧ f.May s (.ofConstant c) :=
      heq.imp_right fun ⟨hst, hsc⟩ => ⟨hst, ih q hq ⟨i, hi, huse⟩ hst hsc⟩
    apply May.flow ⟨q, hi⟩
    cases i with
    | assign d s' =>
      cases hs
      refine ⟨List.mem_singleton.mp hdef, ?_⟩
      rcases hflow with hk | ⟨hst, hv⟩
      · left
        rw [sourceTypes_const hk]
        exact Value.hasType_ofConstant c
      · exact .inr ⟨.inl hst, hv⟩
    | fork s' a b =>
      cases hs
      refine ⟨by simpa [Inst.defs] using hdef, ?_⟩
      rcases hflow with hk | ⟨-, hv⟩
      · rcases (wf.fits q _ hi).use_temp s (List.mem_singleton.mpr rfl) with hst | ⟨d, hd⟩
        · obtain ⟨n, hn⟩ := isTemp_iff.mp hst
          rw [hk] at hn
          cases hn
        · cases hd
      · exact hv
    | _ => cases hs

end Function

/-! ### Folding -/

/-- The result of an operation on literals has a type that the operation announces. -/
theorem BinOp.types_of_fold {op : BinOp} {l r value : Constant} (h : op.fold l r = .ok (some value)) :
  (op.typesFrom (.ofConstant l) (.ofConstant r)).contains (.ofConstant value) = true
  := by
  cases op <;> cases l <;> cases r <;>
    simp [BinOp.fold, onIntegers, integerOf, booleanOf, bind, Except.bind, pure, Except.pure] at h
  all_goals try (split at h <;> cases h)
  all_goals first | rfl | (subst h; rfl)

/-- The types known of the result of a unary operation are those of the constant to which it is
folded. -/
theorem UnOp.types_of_fold {op : UnOp} {value : Constant} (h : op.fold c = .ok (some value)) :
  op.resultTypes = .ofConstant value
  := by
  cases op <;> cases c <;>
    simp [UnOp.fold, integerOf, booleanOf, bind, Except.bind, pure, Except.pure] at h
  all_goals
    subst h
    rfl

namespace Function

variable {f f' : Function}

section Folded

variable {pos : Nat} {inst : Inst} {dest : OperandId} {sources : List OperandId} {value : Constant}

/-- The result of a folded operation flows into its temp. -/
theorem Hinted.may_folded (hf : f.Hinted) (wf : f.WellFormed) (hfetch : f.fetch pos = some inst)
    (hfold : f.foldInst? inst = some (dest, sources, .ok (some value)))
    (hv : v.HasType (.ofConstant value)) :
  f.May dest v
  := by
  have hfits := wf.fits pos inst hfetch
  have hlit : ∀ s c, s ∈ inst.uses → (∀ d, inst ≠ .assign d s) → (f.operand s).constant = some c →
      f.May s (.ofConstant c) := by
    intro s c hs hne hc
    rcases hfits.use_temp s hs with htemp | ⟨d, hd⟩
    · exact hf.may_literal wf ⟨inst, hfetch, hs⟩ htemp hc
    · exact absurd hd (hne d)
  apply May.flow ⟨pos, hfetch⟩
  rcases foldInst?_eq_some hfold with ⟨op, lhs, rhs, l, r, rfl, -, hl, hr, hresult⟩ |
    ⟨op, src, c, rfl, -, hc, hresult⟩
  · refine ⟨rfl, _, _, hlit lhs l ?_ (by rintro _ ⟨⟩) hl, hlit rhs r ?_ (by rintro _ ⟨⟩) hr, ?_⟩
    · simp [Inst.uses]
    · simp [Inst.uses]
    · rw [Value.types_ofConstant, Value.types_ofConstant]
      exact Value.hasType_of_contains (BinOp.types_of_fold hresult.symm) hv
  · refine ⟨rfl, ⟨_, hlit src c (List.mem_singleton.mpr rfl) (by rintro _ ⟨⟩) hc⟩, ?_⟩
    rw [UnOp.types_of_fold hresult.symm]
    exact hv

/-- The assignment of a constant gives its destination values of the type of the constant. -/
theorem gives_literal {s : OperandId} (hs : f.kind s = .const c) :
  f.Gives M (.assign dest s) id v ↔ id = dest ∧ v.HasType (.ofConstant c)
  := by
  have htemp : ¬ (f.isTemp s = true ∨ f.isVar s = true) := by
    rw [isTemp_iff, isVar_iff, hs]
    simp
  unfold Gives
  simp only [htemp, false_and, or_false, sourceTypes_const hs]

/-- After folding no values flow into an operand that did not flow there before. -/
theorem Hinted.may_foldedTo (hf : f.Hinted) (wf : f.WellFormed) (hfetch : f.fetch pos = some inst)
    (hfold : f.foldInst? inst = some (dest, sources, .ok (some value)))
    (hv : (f.foldedTo pos dest value).May id v) :
  f.May id v
  := by
  have h : f.InPlace (f.foldedTo pos dest value) :=
    inPlace_foldedTo hfetch (defs_of_foldInst? hfold).2.2
  apply h.may_of_fetch wf ?_ hv
  intro p i' hi'
  rw [fetch_foldedTo hfetch] at hi'
  split at hi'
  · cases hi'
    right
    intro id v hgives
    obtain ⟨rfl, hv'⟩ := (gives_literal kind_foldedTo_size).mp hgives
    exact hf.may_folded wf hfetch hfold hv'
  · exact .inl hi'

end Folded

/-! ### Specialization -/

end Function

/-- A binary operation is specialized if the types of both operands are the same and known:
additions of integers, and comparisons of integers or of truth values. -/
theorem BinOp.specialized?_eq_some {op fast : BinOp} {a b : Operand}
    (h : op.specialized? a b = some fast) :
  ∃ types, a.types = types ∧ b.types = types ∧
    (op = .add ∧ fast = .intAdd ∧ types = .ints ∨
      op = .eq ∧ fast = .fastEq ∧ (types = .ints ∨ types = .bools))
  := by
  unfold specialized? at h
  split at h
  · split at h
    · rename_i hab
      simp only [Operand.isInt, Bool.and_eq_true, decide_eq_true_eq] at hab
      cases h
      exact ⟨_, hab.1, hab.2, .inl ⟨rfl, rfl, rfl⟩⟩
    · cases h
  · split at h
    · rename_i hab
      simp only [Operand.isInt, Operand.isBool, Bool.or_eq_true, Bool.and_eq_true,
        decide_eq_true_eq] at hab
      cases h
      rcases hab with hab | hab
      · exact ⟨_, hab.1, hab.2, .inr ⟨rfl, rfl, .inl rfl⟩⟩
      · exact ⟨_, hab.1, hab.2, .inr ⟨rfl, rfl, .inr rfl⟩⟩
    · cases h
  · cases h

/-- An inline form gives what the operation gives on operands of the types it is made for. -/
theorem BinOp.typesFrom_specialized {op fast : BinOp} {a b : Operand}
    (h : op.specialized? a b = some fast) {u w : Value} (hu : u.HasType a.types)
    (hw : w.HasType b.types) :
  op.typesFrom u.types w.types = fast.resultTypes ∧ fast.typesFrom u.types w.types = fast.resultTypes
  := by
  obtain ⟨types, ha, hb, ⟨rfl, rfl, rfl⟩ | ⟨rfl, rfl, -⟩⟩ := specialized?_eq_some h
  · rw [ha, Value.hasType_ints_iff] at hu
    rw [hb, Value.hasType_ints_iff] at hw
    obtain ⟨m, rfl⟩ := hu
    obtain ⟨n, rfl⟩ := hw
    exact ⟨rfl, rfl⟩
  · exact ⟨rfl, rfl⟩

namespace Function

variable {f f' : Function}

section Specialized

variable {pos : Nat} {op fast : BinOp} {dest lhs rhs : OperandId}

/-- Types that prove something are those of what flows into an operand. -/
theorem Hinted.hasType (hf : f.Hinted) (hid : id < f.operands.size) (hv : f.May id v)
    (hne : (f.operand id).types ≠ .empty) :
  v.HasType (f.operand id).types
  := (hf.types id hid).resolve_left hne v hv

/-- The operands of an operation that is specialized have only values of the types that are known
of them. -/
theorem Hinted.hasType_of_specialized? (hf : f.Hinted) (wf : f.WellFormed)
    (hfetch : f.fetch pos = some (.binary op dest lhs rhs))
    (hknown : op.specialized? (f.operand lhs) (f.operand rhs) = some fast) :
  (∀ v, f.May lhs v → v.HasType (f.operand lhs).types) ∧
    ∀ v, f.May rhs v → v.HasType (f.operand rhs).types
  := by
  have huse := (wf.fits pos _ hfetch).use_lt
  obtain ⟨types, hl, hr, h⟩ := BinOp.specialized?_eq_some hknown
  have hne : types ≠ .empty := by
    rcases h with ⟨-, -, rfl⟩ | ⟨-, -, rfl | rfl⟩ <;> decide
  constructor
  · intro v hv
    exact hf.hasType (huse lhs (by simp [Inst.uses])) hv (hl ▸ hne)
  · intro v hv
    exact hf.hasType (huse rhs (by simp [Inst.uses])) hv (hr ▸ hne)

/-- After specializing no values flow into an operand that did not flow there before. -/
theorem Hinted.may_specialized (hf : f.Hinted) (wf : f.WellFormed)
    (hfetch : f.fetch pos = some (.binary op dest lhs rhs))
    (hknown : op.specialized? (f.operand lhs) (f.operand rhs) = some fast)
    (hv : (f.specialized pos fast dest lhs rhs).May id v) :
  f.May id v
  := by
  have h : f.InPlace (f.specialized pos fast dest lhs rhs) := inPlace_specialized hfetch
  obtain ⟨hl, hr⟩ := hf.hasType_of_specialized? wf hfetch hknown
  apply h.may_of_fetch wf ?_ hv
  intro p i' hi'
  rw [fetch_specialized hfetch] at hi'
  split at hi'
  · cases hi'
    right
    rintro id v ⟨hid, a, b, ha, hb, hgives⟩
    obtain ⟨heq, heq'⟩ := BinOp.typesFrom_specialized hknown (hl a ha) (hr b hb)
    refine .flow ⟨pos, hfetch⟩ ⟨hid, a, b, ha, hb, ?_⟩
    rw [heq, ← heq']
    exact hgives
  · exact .inl hi'

end Specialized

/-! ### Renaming -/

section Renamed

variable {t s : OperandId}

/-- A renamed instruction gives what it gave, when what is read instead flows there too. -/
theorem Gives.of_mapUses {inst : Inst} (hM : ∀ v, M s v → M t v) (hs : f.isTemp s = true)
    (ht : f.isTemp t = true) (h : f.Gives M (inst.mapUses (substitute t s)) id v) :
  f.Gives M inst id v
  := by
  have hsub : ∀ u v, M (substitute t s u) v → M u v := by
    intro u v hu
    unfold substitute at hu
    split at hu
    · rename_i hut
      rw [hut]
      exact hM v hu
    · exact hu
  cases inst with
  | assign d u =>
    have h' : f.Gives M (.assign d (substitute t s u)) id v := h
    by_cases hut : u = t
    · have hu : substitute t s u = s := if_pos hut
      rw [hu, gives_assign_temp hs] at h'
      rw [hut, gives_assign_temp ht]
      exact ⟨h'.1, hM v h'.2⟩
    · have hu : substitute t s u = u := if_neg hut
      rw [hu] at h'
      exact h'
  | store x u => exact ⟨h.1, h.2.1, hsub u v h.2.2⟩
  | fork u a b => exact ⟨h.1, hsub u v h.2⟩
  | binary op d l r =>
    obtain ⟨hd, a, b, ha, hb, hv⟩ := h
    exact ⟨hd, a, b, hsub l a ha, hsub r b hb, hv⟩
  | unary op d u =>
    obtain ⟨hd, ⟨a, ha⟩, hv⟩ := h
    exact ⟨hd, ⟨a, hsub u a ha⟩, hv⟩
  | _ => exact h

/-- After renaming no values flow into an operand that did not flow there before. -/
theorem may_renamed (wf : f.WellFormed) {pos : Nat} (hfetch : f.fetch pos = some (.assign t s))
    (hs : f.isTemp s = true) (hv : (f.renamed t s).May id v) :
  f.May id v
  := by
  have ht := ((wf.fits pos _ hfetch).def_temp t (List.mem_singleton.mpr rfl)).2
  apply (f.inPlace_renamed t s).may_of_fetch wf ?_ hv
  intro p i' hi'
  obtain ⟨i, hi, rfl⟩ := fetch_renamed_eq_some.mp hi'
  right
  intro id v hgives
  have hgives' : f.Gives f.May (i.mapUses (substitute t s)) id v := hgives
  apply May.flow ⟨p, hi⟩
  apply hgives'.of_mapUses ?_ hs ht
  intro v hv
  exact .flow ⟨pos, hfetch⟩ ⟨rfl, .inr ⟨.inl hs, hv⟩⟩

end Renamed

/-! ### Forwarding -/

section Forwarded

variable {pos : Nat} {location src dest : OperandId}

/-- What is stored flows to the load after the store. -/
theorem may_loaded (hp : f.pending = []) (hpair : f.storeThenLoad? pos = some (location, src, dest))
    (hv : f.May src v) :
  f.May dest v
  := by
  obtain ⟨h₀, h₁, -, hplace⟩ := storeThenLoad?_eq_some hp hpair
  apply May.flow ⟨pos + 1, h₁⟩
  refine ⟨rfl, ?_⟩
  have hany : ∀ k, (f.operand location).kind = k → (∃ n, k = .global n) ∨ (∃ n, k = .contents n) →
      v.HasType (f.sourceTypes [] location) := by
    intro k hk hplace
    unfold sourceTypes
    rw [hk]
    rcases hplace with ⟨n, rfl⟩ | ⟨n, rfl⟩ <;> exact Value.hasType_any v
  rcases hplace with hvar | hplace
  · exact .inr ⟨.inr hvar, .flow ⟨pos, h₀⟩ ⟨rfl, hvar, hv⟩⟩
  · exact .inl (hany _ rfl hplace)

/-- The operand whose value a copy holds. -/
def original (f : Function) (src id : OperandId) : OperandId :=
  if id < f.operands.size then id else src

/-- After forwarding, what flows into a copy flowed into its original before, and no more flows
into other operands. -/
theorem may_forwarded (wf : f.WellFormed) (hp : f.pending = [])
    (hpair : f.storeThenLoad? pos = some (location, src, dest))
    (hv : (f.forwarded pos location src dest).May id v) :
  f.May (f.original src id) v
  := by
  have h := inPlace_forwarded wf hp hpair
  obtain ⟨φ, hφ⟩ := compacts_roomToForward wf hp hpair
  obtain ⟨h₀, h₁, -, -⟩ := storeThenLoad?_eq_some hp hpair
  have hfits := wf.fits pos _ h₀
  have hsrc : f.original src src = src := if_pos (hfits.use_lt src (List.mem_singleton.mpr rfl))
  have hlocation : f.original src location = location := if_pos (hfits.store_place location src rfl).1
  have hdest : f.original src dest = dest :=
    if_pos ((wf.fits _ _ h₁).def_temp dest (List.mem_singleton.mpr rfl)).1
  have hnew : ∀ n, f.original src (f.operands.size + n) = src := fun n =>
    if_neg (Nat.not_lt_of_le (Nat.le_add_right _ n))
  rw [hφ.may_iff]
  apply h.may (σ := f.original src) (wellFormed_roomToForward wf hp hpair) (fun id hid => if_pos hid) ?_ hv
  intro p i' hi'
  rw [fetch_forwarded wf hp hpair] at hi'
  split at hi'
  · cases hi'
    right
    rintro id v ⟨hid, hv⟩
    rw [hsrc] at hv
    rcases hid with rfl | rfl
    · exact (congrArg (Function.May _ · v) (hnew 0)).mpr hv
    · exact (congrArg (Function.May _ · v) (hnew 1)).mpr hv
  · split at hi'
    · cases hi'
      right
      rintro id v ⟨rfl, hvar, hv⟩
      have hv' : f.May src v := by
        rw [hφ.may_iff]
        exact (congrArg (Function.May _ · v) (hnew 0)).mp hv
      rw [hlocation, ← hφ.may_iff]
      rw [h.isVar_eq (by exact (hfits.store_place id src rfl).1)] at hvar
      exact .flow ⟨pos, h₀⟩ ⟨rfl, hvar, hv'⟩
    · split at hi'
      · cases hi'
        right
        intro id v hgives
        rw [gives_assign_temp (isTemp_of_new wf hp hpair (.inr rfl)).2] at hgives
        obtain ⟨rfl, hv'⟩ := hgives
        rw [hnew 1, ← hφ.may_iff] at hv'
        rw [hdest, ← hφ.may_iff]
        exact may_loaded hp hpair hv'
      · exact .inl hi'

end Forwarded

end Function

open IR.Function

/-- A change lets no more flow into an operand: a value that may be in `id` afterwards might have
been there before. -/
theorem Edit.may {f f' : Function} (h : Edit f f') (wf : f.WellFormed) (hf : f.Hinted)
    (hid : id < f.operands.size) (hv : f'.May id v) :
  f.May id v
  := by
  have hremove : ∀ {pos : Nat} {inst : Inst}, f.fetch pos = some inst → (∀ l, inst ≠ .label l) →
      (f.remove pos).May id v → f.May id v := by
    intro pos inst hfetch hlabel hv
    apply (inPlace_remove hfetch hlabel).may_of_fetch wf ?_ hv
    exact fun p i' hi' => .inl (fetch_of_fetch_remove hi').1
  cases h with
  | annotate same => exact same.may_iff.mp hv
  | fold hfetch hresult => exact hf.may_foldedTo wf hfetch hresult hv
  | specialize hfetch hknown => exact hf.may_specialized wf hfetch hknown hv
  | rename hfetch htemp => exact may_renamed wf hfetch htemp hv
  | erase hfetch hpure =>
    refine hremove hfetch ?_ hv
    rintro l rfl
    cases hpure
  | eraseAssertion hfetch => exact hremove hfetch (fun _ => nofun) hv
  | @narrow pos src kept dropped hfetch =>
    obtain ⟨a, b, hold, hab, hplace⟩ := exists_fork hfetch
    have hsrc : f.isTemp src = true := by
      rcases (wf.fits pos _ hold).use_temp src (List.mem_singleton.mpr rfl) with hs | ⟨d, hd⟩
      · exact hs
      · cases hd
    apply hplace.may_of_fetch wf ?_ hv
    intro p i' hi'
    rw [fetch_replace hold] at hi'
    split at hi'
    · cases hi'
      right
      intro id v hgives
      rw [gives_assign_temp (by exact hsrc)] at hgives
      obtain ⟨rfl, hv'⟩ := hgives
      exact .flow ⟨pos, hold⟩ ⟨hab, hv'⟩
    · exact .inl hi'
  | eraseStore hfetch => exact hremove hfetch (fun _ => nofun) hv
  | forward hpending hpair =>
    have := may_forwarded wf hpending hpair hv
    rwa [original, if_pos hid] at this
  | compact =>
    obtain ⟨φ, hφ⟩ := compacts_compact wf.labels
    exact hφ.may_iff.mp hv

/-! ### Hints stay true -/

namespace Function

variable {f f' : Function}

/-- An operand that equals a constant still does, if its kind and what is known of its constant
stay. -/
theorem Equals.of_kind {s : OperandId} (hkind : f'.kind s = f.kind s)
    (hkeep : (f.operand s).constant = some c → (f'.operand s).constant = some c) (h : f.Equals s c) :
  f'.Equals s c
  := by
  rcases h with h | ⟨ht, hc⟩
  · exact .inl (hkind.trans h)
  · exact .inr ⟨(isTemp_congr hkind).trans ht, hkeep hc⟩

/-- Hints stay true when no more flows, nothing known is forgotten, and what is new is true. -/
theorem Hinted.change (hf : f.Hinted) (wf : f.WellFormed)
    (hmay : ∀ id v, id < f.operands.size → f'.May id v → f.May id v)
    (hkind : ∀ id, id < f.operands.size → f'.kind id = f.kind id)
    (hkeep : ∀ id c, id < f.operands.size → (f.operand id).constant = some c →
      (f'.operand id).constant = some c)
    (htypes : ∀ id, id < f'.operands.size →
      id < f.operands.size ∧ (f'.operand id).types = (f.operand id).types ∨
      (f'.operand id).types = .empty ∨ ∀ v, f'.May id v → v.HasType (f'.operand id).types)
    (hconstants : ∀ p i' t c, f'.fetch p = some i' → t ∈ i'.defs →
      (f'.operand t).constant = some c →
      (∃ q i, f.fetch q = some i ∧ t ∈ i.defs ∧ i.source? = i'.source? ∧
        (f.operand t).constant = some c) ∨ ∃ s, i'.source? = some s ∧ f'.Equals s c)
    (hliteral : ∀ id c, f.operands.size ≤ id → id < f'.operands.size → f'.kind id = .const c →
      (f'.operand id).constant = some c) :
  f'.Hinted
  := by
  constructor
  · intro id hid
    rcases htypes id hid with ⟨hlt, heq⟩ | h
    · rw [heq]
      exact (hf.types id hlt).imp_right fun h v hv => h v (hmay id v hlt hv)
    · exact h
  · intro p i' t c hi' ht hc
    rcases hconstants p i' t c hi' ht hc with ⟨q, i, hi, hdef, hsource, hc'⟩ | h
    · obtain ⟨s, hs, heq⟩ := hf.constants q i t c hi hdef hc'
      have hlt : s < f.operands.size := by
        apply (wf.fits q i hi).use_lt
        cases i <;> cases hs <;> exact List.mem_singleton.mpr rfl
      exact ⟨s, hsource ▸ hs, heq.of_kind (hkind s hlt) (hkeep s c hlt)⟩
    · exact h
  · intro id c hid hk
    rcases Nat.lt_or_ge id f.operands.size with hlt | hge
    · rw [hkind id hlt] at hk
      exact hkeep id c hlt (hf.literal id c hlt hk)
    · exact hliteral id c hge hid hk

/-- Hints about the same code are true when nothing else is known to equal a literal and the
types allow for what flows. -/
theorem Hinted.of_sameCode (hf : f.Hinted) (wf : f.WellFormed) (same : f.SameCode f')
    (hconst : ∀ id, (f'.operand id).constant = (f.operand id).constant)
    (htypes : ∀ id, id < f.operands.size → (f'.operand id).types = (f.operand id).types ∨
      ∀ v, f.May id v → v.HasType (f'.operand id).types) :
  f'.Hinted
  := by
  apply hf.change wf (fun id v _ => same.may_iff.mp) fun id _ => same.kind_eq id
  · intro id c _ hc
    rw [hconst]
    exact hc
  · intro id hid
    rw [same.size_eq] at hid
    rcases htypes id hid with h | h
    · exact .inl ⟨hid, h⟩
    · exact .inr (.inr fun v hv => h v (same.may_iff.mp hv))
  · intro p i t c hi ht hc
    rw [hconst] at hc
    exact .inl ⟨p, i, (same.fetch_eq p).symm.trans hi, ht, rfl, hc⟩
  · intro id c hge hid
    rw [same.size_eq] at hid
    exact absurd hid (Nat.not_lt_of_le hge)

/-- Hints stay true when they stay as they are. -/
theorem Hinted.of_operands (hf : f.Hinted) (wf : f.WellFormed) (hoperands : f'.operands = f.operands)
    (hmay : ∀ id v, id < f.operands.size → f'.May id v → f.May id v)
    (hconstants : ∀ p i' t c, f'.fetch p = some i' → t ∈ i'.defs → (f.operand t).constant = some c →
      (∃ q i, f.fetch q = some i ∧ t ∈ i.defs ∧ i.source? = i'.source?) ∨
        ∃ s, i'.source? = some s ∧ f.Equals s c) :
  f'.Hinted
  := by
  have hop : ∀ id, f'.operand id = f.operand id := by
    intro id
    unfold operand
    rw [hoperands]
  have hkind : ∀ id, f'.kind id = f.kind id := fun id => congrArg Operand.kind (hop id)
  have hsize : f'.operands.size = f.operands.size := congrArg Array.size hoperands
  apply hf.change wf hmay
  · exact fun id _ => hkind id
  · intro id c _ hc
    rw [hop]
    exact hc
  · intro id hid
    exact .inl ⟨hsize ▸ hid, by rw [hop]⟩
  · intro p i' t c hi' ht hc
    rw [hop] at hc
    rcases hconstants p i' t c hi' ht hc with ⟨q, i, hi, hdef, hs⟩ | ⟨s, hs, heq⟩
    · exact .inl ⟨q, i, hi, hdef, hs, hc⟩
    · refine .inr ⟨s, hs, heq.of_kind (hkind s) ?_⟩
      rw [hop]
      exact id
  · intro id c hge hid
    omega

/-- In well-formed code values flow only into operands that are in the table. -/
theorem May.lt_size (wf : f.WellFormed) (h : f.May id v) :
  id < f.operands.size
  := by
  rcases h.cases with hp | ⟨inst, ⟨p, hp⟩, hgives⟩
  · by_contra hge
    have hvar := isVar_of_isParameter hp
    rw [isVar_of_size_le (Nat.le_of_not_lt hge)] at hvar
    cases hvar
  · exact (hgives.transport (N := f.May) (wf.fits p inst hp) (fun _ _ => rfl) fun _ _ _ h => h).1

/-- What flows into a temp comes from the one instruction that defines it. -/
theorem May.of_defs (wf : f.WellFormed) {p : Nat} {inst : Inst} {t : OperandId}
    (hfetch : f.fetch p = some inst) (ht : t ∈ inst.defs) (h : f.May t v) :
  f.Gives f.May inst t v
  := by
  obtain ⟨q, i, hi, hdef, hgives⟩ := h.of_temp wf ((wf.fits p inst hfetch).def_temp t ht).2
  obtain ⟨-, rfl⟩ := wf.eq_of_defs hfetch hi ht hdef
  exact hgives

section Folded

variable {pos : Nat} {inst : Inst} {dest : OperandId} {sources : List OperandId} {value : Constant}

/-- After folding, the destination has the constant and its type in addition, the new operand is
the constant, and other operands are as they were. -/
theorem operand_foldedTo (hdest : dest < f.operands.size) (id : OperandId) :
  (f.foldedTo pos dest value).operand id
    = if id = dest then { f.operand dest with
        types := (f.operand dest).types.union (.ofConstant value), constant := some value }
      else if id = f.operands.size then .ofKind (.const value) else f.operand id
  := by
  have hnew : ∀ id, (f.newConstant value).2.operand id
      = if id = f.operands.size then .ofKind (.const value) else f.operand id :=
    operand_addOperand _
  have hlt : dest < (f.newConstant value).2.operands.size := by
    unfold newConstant
    rw [size_addOperand]
    exact Nat.lt_succ_of_lt hdest
  unfold foldedTo
  rw [operand_replace]
  by_cases h : id = dest
  · subst h
    rw [operand_modify_self _ (by rwa [size_addTypes]), if_pos rfl]
    unfold addTypes
    rw [operand_modify_self _ hlt, hnew, if_neg (Nat.ne_of_lt hdest)]
  · rw [operand_modify_of_ne _ h, if_neg h, ← hnew]
    exact operand_modify_of_ne _ h

theorem size_foldedTo :
  (f.foldedTo pos dest value).operands.size = f.operands.size + 1
  := by
  simp [foldedTo, newConstant, replace, addTypes, modify, addOperand]

/-- Hints stay true when the operation at `pos` gives way to the literal `value` it comes to. -/
theorem Hinted.foldedTo (hf : f.Hinted) (wf : f.WellFormed) (hfetch : f.fetch pos = some inst)
    (hfold : f.foldInst? inst = some (dest, sources, .ok (some value))) :
  (f.foldedTo pos dest value).Hinted
  := by
  obtain ⟨hdefs, -, hlabel⟩ := defs_of_foldInst? hfold
  have hmem : dest ∈ inst.defs := hdefs ▸ List.mem_singleton.mpr rfl
  have hdest := ((wf.fits pos inst hfetch).def_temp dest hmem).1
  have hview : ∀ p, (f.foldedTo pos dest value).fetch p = _ := fetch_foldedTo hfetch
  have hfetch' : (f.foldedTo pos dest value).fetch pos = some (.assign dest f.operands.size) := by
    rw [hview, if_pos rfl]
  have wf' : (f.foldedTo pos dest value).WellFormed :=
    (keepsOrder_foldedTo wf hfetch hfold).wellFormed
  have hmay : ∀ id v, (f.foldedTo pos dest value).May id v → f.May id v :=
    fun id v => hf.may_foldedTo wf hfetch hfold
  -- Nothing was known to equal the result before.
  have hnone : ∀ c, (f.operand dest).constant ≠ some c := by
    intro c hc
    obtain ⟨s, hs, -⟩ := hf.constants pos inst dest c hfetch hmem hc
    rcases foldInst?_eq_some hfold with ⟨op, lhs, rhs, l, r, rfl, -⟩ | ⟨op, src, c, rfl, -⟩ <;> cases hs
  apply hf.change wf (fun id v _ => hmay id v) (inPlace_foldedTo hfetch hlabel).kind_eq
  · intro id c hid hc
    rw [operand_foldedTo hdest]
    split
    · rename_i h
      exact absurd (h ▸ hc) (hnone c)
    · rwa [if_neg (Nat.ne_of_lt hid)]
  · intro id hid
    rw [operand_foldedTo hdest]
    split
    · rename_i h
      subst h
      right; right
      intro v hv
      have hgives := hv.of_defs wf' hfetch' (List.mem_singleton.mpr rfl)
      rw [gives_literal kind_foldedTo_size] at hgives
      exact Value.hasType_union_iff.mpr (.inr hgives.2)
    · split
      · rename_i h
        right; right
        intro v hv
        exact absurd ((hmay id v hv).lt_size wf) (h ▸ Nat.lt_irrefl _)
      · rename_i h
        rw [size_foldedTo] at hid
        exact .inl ⟨Nat.lt_of_le_of_ne (Nat.le_of_lt_succ hid) h, rfl⟩
  · intro p i' t c hi' ht hc
    by_cases hp : p = pos
    · subst hp
      rw [hfetch'] at hi'
      cases hi'
      obtain rfl := List.mem_singleton.mp ht
      rw [operand_foldedTo hdest, if_pos rfl] at hc
      cases hc
      exact .inr ⟨_, rfl, .inl kind_foldedTo_size⟩
    · rw [hview, if_neg hp] at hi'
      left
      refine ⟨p, i', hi', ht, rfl, ?_⟩
      have hne : t ≠ dest := by
        rintro rfl
        exact hp (wf.eq_of_defs hi' hfetch ht hmem).1
      have hlt := ((wf.fits p i' hi').def_temp t ht).1
      rwa [operand_foldedTo hdest, if_neg hne, if_neg (Nat.ne_of_lt hlt)] at hc
  · intro id c hge hid hk
    have hne : id ≠ dest := fun h => Nat.lt_irrefl _ (Nat.lt_of_lt_of_le hdest (h ▸ hge))
    unfold kind at hk
    rw [operand_foldedTo hdest, if_neg hne] at hk ⊢
    split at hk
    · rw [kind_ofKind] at hk
      cases hk
      rw [if_pos ‹_›]
      rfl
    · rename_i hne'
      rw [size_foldedTo] at hid
      exact absurd (Nat.le_antisymm (Nat.le_of_lt_succ hid) hge) hne'

end Folded

section Specialized

variable {pos : Nat} {op fast : BinOp} {dest lhs rhs : OperandId}

/-- After specializing, the destination has the types of the fast operation in addition, and other
operands are as they were. -/
theorem operand_specialized (hdest : dest < f.operands.size) (id : OperandId) :
  (f.specialized pos fast dest lhs rhs).operand id
    = if id = dest then { f.operand dest with
        types := (f.operand dest).types.union fast.resultTypes }
      else f.operand id
  := by
  unfold specialized
  rw [operand_replace]
  split
  · rename_i h
    subst h
    exact operand_modify_self _ hdest
  · exact operand_modify_of_ne _ ‹_›

/-- Hints stay true when an operation gives way to the `fast` one for operands of known types. -/
theorem Hinted.specialized (hf : f.Hinted) (wf : f.WellFormed)
    (hfetch : f.fetch pos = some (.binary op dest lhs rhs))
    (hknown : op.specialized? (f.operand lhs) (f.operand rhs) = some fast) :
  (f.specialized pos fast dest lhs rhs).Hinted
  := by
  have hdest := ((wf.fits pos _ hfetch).def_temp dest (List.mem_singleton.mpr rfl)).1
  have hview : ∀ p, (f.specialized pos fast dest lhs rhs).fetch p = _ := fetch_specialized hfetch
  have hfetch' : (f.specialized pos fast dest lhs rhs).fetch pos
      = some (.binary fast dest lhs rhs) := by
    rw [hview, if_pos rfl]
  have wf' : (f.specialized pos fast dest lhs rhs).WellFormed :=
    (keepsOrder_specialized wf hfetch).wellFormed
  have hmay : ∀ id v, (f.specialized pos fast dest lhs rhs).May id v → f.May id v :=
    fun id v => hf.may_specialized wf hfetch hknown
  have hsize : (f.specialized pos fast dest lhs rhs).operands.size = f.operands.size :=
    size_addTypes dest fast.resultTypes
  have hconst : ∀ id, ((f.specialized pos fast dest lhs rhs).operand id).constant
      = (f.operand id).constant := by
    intro id
    rw [operand_specialized hdest]
    split
    · rename_i h
      rw [h]
    · rfl
  obtain ⟨hl, hr⟩ := hf.hasType_of_specialized? wf hfetch hknown
  apply hf.change wf (fun id v _ => hmay id v) (inPlace_specialized hfetch).kind_eq
  · intro id c _ hc
    rw [hconst]
    exact hc
  · intro id hid
    rw [operand_specialized hdest]
    split
    · rename_i h
      subst h
      right; right
      intro v hv
      obtain ⟨-, a, b, ha, hb, hgives⟩ := hv.of_defs wf' hfetch' (List.mem_singleton.mpr rfl)
      obtain ⟨-, heq⟩ := BinOp.typesFrom_specialized hknown (hl a (hmay _ _ ha)) (hr b (hmay _ _ hb))
      rw [heq] at hgives
      exact Value.hasType_union_iff.mpr (.inr hgives)
    · exact .inl ⟨hsize ▸ hid, rfl⟩
  · intro p i' t c hi' ht hc
    rw [hconst] at hc
    by_cases hp : p = pos
    · subst hp
      rw [hfetch'] at hi'
      cases hi'
      exact .inl ⟨p, _, hfetch, ht, rfl, hc⟩
    · rw [hview, if_neg hp] at hi'
      exact .inl ⟨p, i', hi', ht, rfl, hc⟩
  · intro id c hge hid
    rw [hsize] at hid
    exact absurd hid (Nat.not_lt_of_le hge)

end Specialized

section Renamed

variable {t s : OperandId}

/-- Hints stay true when the temp `s` is read in place of its copy `t`. -/
theorem Hinted.renamed (hf : f.Hinted) (wf : f.WellFormed) {pos : Nat}
    (hfetch : f.fetch pos = some (.assign t s)) (hs : f.isTemp s = true) :
  (f.renamed t s).Hinted
  := by
  have hoperands : (f.renamed t s).operands = f.operands := rfl
  apply hf.of_operands wf hoperands (fun id v _ => may_renamed wf hfetch hs)
  intro p i' u c hi' hu hc
  obtain ⟨i, hi, rfl⟩ := fetch_renamed_eq_some.mp hi'
  rw [Inst.defs_mapUses] at hu
  obtain ⟨w, hw, heq⟩ := hf.constants p i u c hi hu hc
  right
  refine ⟨substitute t s w, ?_, ?_⟩
  · cases i <;> cases hw <;> rfl
  · unfold substitute
    split
    · rename_i hwt
      subst hwt
      -- What equals the copy equals what is copied.
      have ht : f.isTemp w = true := ((wf.fits pos _ hfetch).def_temp w (List.mem_singleton.mpr rfl)).2
      rcases heq with hk | ⟨-, hc'⟩
      · obtain ⟨n, hn⟩ := isTemp_iff.mp ht
        rw [hk] at hn
        cases hn
      · obtain ⟨s', hs', heq'⟩ := hf.constants pos _ w c hfetch (List.mem_singleton.mpr rfl) hc'
        cases hs'
        exact heq'
    · exact heq

end Renamed

section Forwarded

variable {pos : Nat} {location src dest : OperandId}

/-- The operands after those of the function are the two copies. -/
theorem eq_of_new (hge : f.operands.size ≤ id) (hid : id < f.operands.size + 2) :
  id = f.operands.size ∨ id = f.operands.size + 1
  := by
  rcases Nat.eq_or_lt_of_le hge with heq | hlt
  · exact .inl heq.symm
  · exact .inr (Nat.le_antisymm (Nat.le_of_lt_succ hid) hlt)

/-- The copies are known to be what the value is known to be. -/
theorem hints_forwarded (hsrc : src < f.operands.size) (hid : id < f.operands.size + 2) :
  ((f.forwarded pos location src dest).operand id).types = (f.operand (f.original src id)).types ∧
    ((f.forwarded pos location src dest).operand id).constant
      = (f.operand (f.original src id)).constant
  := by
  have hclear : ∀ g : Function,
      ((g.modify dest fun o => { o with loadedFrom := none }).operand id).types = (g.operand id).types ∧
      ((g.modify dest fun o => { o with loadedFrom := none }).operand id).constant
        = (g.operand id).constant := by
    intro g
    rw [operand_modify]
    split
    · rename_i h
      rw [h.1]
      exact ⟨rfl, rfl⟩
    · exact ⟨rfl, rfl⟩
  have hcopies : ((f.withCopies src).operand id).types = (f.operand (f.original src id)).types ∧
      ((f.withCopies src).operand id).constant = (f.operand (f.original src id)).constant := by
    unfold original
    split
    · rw [operand_withCopies_of_lt ‹_›]
      exact ⟨rfl, rfl⟩
    · exact (operand_withCopies_new hsrc (eq_of_new (Nat.le_of_not_lt ‹_›) hid)).2
  obtain ⟨h₁, h₂⟩ := hclear (((f.forked pos src).inserted (pos + 1)
    (.store location f.operands.size)).replace (pos + 2) (.assign dest (f.operands.size + 1)))
  exact ⟨h₁.trans hcopies.1, h₂.trans hcopies.2⟩

/-- A variable, a global and the contents of a cell are not known to equal a constant. -/
theorem not_equals_of_place (h : f.isVar location = true ∨ (∃ n, f.kind location = .global n) ∨
      ∃ n, f.kind location = .contents n) (c : Constant) :
  ¬ f.Equals location c
  := by
  unfold Equals
  rw [isTemp_iff]
  rw [isVar_iff] at h
  rintro (hk | ⟨⟨n, hk⟩, -⟩) <;> rw [hk] at h <;> simp at h

/-- Forwarding keeps hints true: what is known of the stored value is true of its copies. -/
theorem Hinted.forwarded (hf : f.Hinted) (wf : f.WellFormed) (hp : f.pending = [])
    (hpair : f.storeThenLoad? pos = some (location, src, dest)) :
  (f.forwarded pos location src dest).Hinted
  := by
  have h := inPlace_forwarded wf hp hpair
  obtain ⟨φ, hφ⟩ := compacts_roomToForward wf hp hpair
  obtain ⟨h₀, h₁, -, hplace⟩ := storeThenLoad?_eq_some hp hpair
  have hfits := wf.fits pos _ h₀
  have hsrc := hfits.use_lt src (List.mem_singleton.mpr rfl)
  have hsrctemp : f.isTemp src = true := by
    rcases hfits.use_temp src (List.mem_singleton.mpr rfl) with ht | ⟨d, hd⟩
    · exact ht
    · cases hd
  have hsize : (f.forwarded pos location src dest).operands.size = f.operands.size + 2 :=
    (size_modify ..).trans (size_withCopies f src)
  have hsame : ∀ id, id < f.operands.size → f.original src id = id := fun id hid => if_pos hid
  have hnew : ∀ id, f.operands.size ≤ id → f.original src id = src := fun id hid =>
    if_neg (Nat.not_lt_of_le hid)
  have htypes : ∀ id, id < f.operands.size + 2 →
      ((f.forwarded pos location src dest).operand id).types = (f.operand (f.original src id)).types :=
    fun id hid => (hints_forwarded hsrc hid).1
  have hconst : ∀ id, id < f.operands.size + 2 →
      ((f.forwarded pos location src dest).operand id).constant
        = (f.operand (f.original src id)).constant :=
    fun id hid => (hints_forwarded hsrc hid).2
  have hlt : ∀ {id}, id < f.operands.size → id < f.operands.size + 2 := fun h =>
    Nat.lt_trans h (Nat.lt_add_of_pos_right (by decide))
  apply hf.change wf ?_ h.kind_eq
  · intro id c hid hc
    rw [hconst id (hlt hid), hsame id hid]
    exact hc
  · intro id hid
    rw [hsize] at hid
    rw [htypes id hid]
    rcases Nat.lt_or_ge id f.operands.size with hid' | hge
    · exact .inl ⟨hid', by rw [hsame id hid']⟩
    · right
      rw [hnew id hge]
      refine (hf.types src hsrc).imp_right fun hv v hmay => hv v ?_
      have := may_forwarded wf hp hpair hmay
      rwa [hnew id hge] at this
  · intro p i' t c hi' ht hc
    rw [fetch_forwarded wf hp hpair] at hi'
    split at hi'
    · cases hi'
      have ht' : t = f.operands.size ∨ t = f.operands.size + 1 := by simpa [Inst.defs] using ht
      have hge : f.operands.size ≤ t := by
        rcases ht' with rfl | rfl
        · exact Nat.le_refl _
        · exact Nat.le_succ _
      rw [hconst t (hsize ▸ (isTemp_of_new wf hp hpair ht').1), hnew t hge] at hc
      right
      refine ⟨src, rfl, .inr ⟨(isTemp_congr (h.kind_eq src hsrc)).trans hsrctemp, ?_⟩⟩
      rw [hconst src (hlt hsrc), hsame src hsrc]
      exact hc
    · split at hi'
      · cases hi'
        cases ht
      · split at hi'
        · cases hi'
          obtain rfl := List.mem_singleton.mp ht
          have hdest := ((wf.fits _ _ h₁).def_temp t (List.mem_singleton.mpr rfl)).1
          rw [hconst t (hlt hdest), hsame t hdest] at hc
          -- What is read from a location is not known to equal a literal.
          obtain ⟨s, hs, heq⟩ := hf.constants _ _ t c h₁ (List.mem_singleton.mpr rfl) hc
          cases hs
          exact absurd heq (not_equals_of_place hplace c)
        · left
          have hi := (hφ.keep p i' hi').2
          have htlt := ((wf.fits _ _ hi).def_temp t ht).1
          rw [hconst t (hlt htlt), hsame t htlt] at hc
          exact ⟨_, i', hi, ht, rfl, hc⟩
  · intro id c hge hid hk
    rw [hsize] at hid
    obtain ⟨n, hn⟩ := isTemp_iff.mp (isTemp_of_new wf hp hpair (eq_of_new hge hid)).2
    rw [hn] at hk
    cases hk
  · intro id v hid hv
    have := may_forwarded wf hp hpair hv
    rwa [hsame id hid] at this

end Forwarded

end Function

/-- Every change of a well-formed function with true hints gives a function with true hints. -/
theorem Edit.hinted {f f' : Function} (h : Edit f f') (wf : f.WellFormed) (hf : f.Hinted) :
  f'.Hinted
  := by
  have hmay : ∀ id v, id < f.operands.size → f'.May id v → f.May id v := fun id v => h.may wf hf
  -- The instructions that are left fill temps from what they filled them from.
  have hkept : f'.operands = f.operands →
      (∀ p i', f'.fetch p = some i' → f.fetch p = some i' ∨ i'.defs = []) → f'.Hinted := by
    intro hoperands hview
    apply hf.of_operands wf hoperands hmay
    intro p i' t c hi' ht _
    rcases hview p i' hi' with hi | hdefs
    · exact .inl ⟨p, i', hi, ht, rfl⟩
    · rw [hdefs] at ht
      cases ht
  have hremove : ∀ {pos : Nat} p i', (f.remove pos).fetch p = some i' →
      f.fetch p = some i' ∨ i'.defs = [] := fun _ _ hi' => .inl (fetch_of_fetch_remove hi').1
  cases h with
  | annotate _ hints => exact hints hf
  | fold hfetch hresult => exact hf.foldedTo wf hfetch hresult
  | specialize hfetch hknown => exact hf.specialized wf hfetch hknown
  | rename hfetch htemp => exact hf.renamed wf hfetch htemp
  | erase => exact hkept rfl hremove
  | eraseAssertion => exact hkept rfl hremove
  | @narrow pos src kept dropped hfetch =>
    obtain ⟨a, b, hold, hab, -⟩ := exists_fork hfetch
    have hoperands : (f.replace pos (.assign kept src)).operands = f.operands := rfl
    apply hf.of_operands wf hoperands hmay
    intro p i' t c hi' ht _
    rw [fetch_replace hold] at hi'
    split at hi'
    · cases hi'
      obtain rfl := List.mem_singleton.mp ht
      exact .inl ⟨pos, _, hold, by simpa [Inst.defs] using hab, rfl⟩
    · exact .inl ⟨p, i', hi', ht, rfl⟩
  | eraseStore => exact hkept rfl hremove
  | forward hpending hpair => exact hf.forwarded wf hpending hpair
  | compact =>
    obtain ⟨φ, hφ⟩ := compacts_compact wf.labels
    apply hf.of_operands wf hφ.operands hmay
    intro q i t c hq ht _
    obtain ⟨p, -, hp⟩ := hφ.exists_of_fetch hq
    exact .inl ⟨p, i, hp, ht, rfl⟩

end StackCompiler.IR
