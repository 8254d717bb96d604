import StackCompiler.Proofs.Typing.Guards

/-!
# Hints are true of every run

`Tracks f c` says of a state in a run what the code that was passed makes certain: temps
defined since the last label hold what may flow into them and equal their literals,
assertions that were passed are met, and variables hold what may flow into them.  A step
keeps this so, and what it writes agrees with the hints.
-/

namespace StackCompiler.IR

open Bytecode (Constant)

variable {World : Type}

/-- The types of the sum of two values. -/
theorem hasType_sum {rt : Runtime World} (hrt : rt.Typed) {a b v : Value} {w w' : World}
    (h : rt.serve (.add a b) w = some (v, w')) :
  v.HasType (BinOp.typesFrom a.types b.types .add)
  := by
  have hany := hrt.add_types a b v w w' h
  cases a <;> cases b
  case int.int m n => exact hrt.add_ints m n v w w' h
  all_goals exact hany

/-- A temp that an instruction fills is defined by it. -/
theorem Inst.mem_defs_of_targets {f : Function} {inst : Inst} (hfits : inst.Fits f)
    {t : OperandId} (ht : t ∈ inst.targets f) (htemp : f.isTemp t = true) :
  t ∈ inst.defs
  := by
  cases inst with
  | store x s =>
    have hplace := Function.isTemp_eq_false (hfits.store_place x s rfl).2
    rw [eq_of_mem_targets_store ht, hplace] at htemp
    cases htemp
  | forceLoad x =>
    have hvar := (hfits.load_var x rfl).2
    simp only [targets, hvar, if_true, List.mem_singleton] at ht
    rw [← ht, Function.isVar_eq_false htemp] at hvar
    cases hvar
  | _ => exact ht

namespace Function

variable {f : Function} {rt : Runtime World} {locals : Nat → Value} {c c' : Config World}
  {id d : OperandId} {v : Value}

/-- What is certain at a state of a run. -/
structure Tracks (f : Function) (c : Config World) : Prop where
  temp : ∀ q t, f.DefinesAt q t → q < c.pos → f.Straight q c.pos →
    f.May t (c.cells t) ∧ ∀ k, (f.operand t).constant = some k → c.cells t = .ofConstant k
  passed : ∀ q kind t, f.fetch q = some (.assertion kind t) → q < c.pos → f.Straight q c.pos →
    kind.admits (c.cells t) = true
  var : ∀ q x, f.OpensAt q x → f.isVar x = true → q < c.pos → f.May x (c.cells x)

/-! ### What an instruction finds -/

section Reads

variable {inst : Inst} (hf : f.Checked) (hc : f.Tracks c) (hfetch : f.fetch c.pos = some inst)
include hf hc hfetch

/-- A temp that an instruction reads holds what may flow into it, and equals its literal. -/
theorem Tracks.read_temp {t : OperandId} (ht : t ∈ inst.uses) (htemp : f.isTemp t = true) :
  f.May t (c.cells t) ∧ ∀ k, (f.operand t).constant = some k → c.cells t = .ofConstant k
  := by
  obtain ⟨q, hq, hdef⟩ := hf.wellFormed.defined c.pos t ⟨inst, hfetch, ht⟩ htemp
  exact hc.temp q t hdef hq (hf.isLocal q c.pos t hdef ⟨inst, hfetch, ht⟩)

/-- A variable that an instruction reads holds what may flow into it. -/
theorem Tracks.read_var {x : OperandId} (hinst : inst = .assign d x) (hx : f.isVar x = true) :
  f.May x (c.cells x)
  := by
  obtain ⟨q, hq, hopens⟩ := hf.opened c.pos x ⟨d, hinst ▸ hfetch⟩ hx
  exact hc.var q x hopens hx hq

/-- What is secured of an operand is so. -/
theorem Tracks.admits {t : OperandId} (ht : t ∈ inst.uses) (htemp : f.isTemp t = true)
    {kind : AssertKind} (h : f.Secured c.pos kind t) :
  kind.admits (c.cells t) = true
  := by
  rcases h with h | ⟨q, hq, hassert⟩
  · exact h _ (hc.read_temp hf hfetch ht htemp).1
  · -- No label stands between the definition and the use, so none after the assertion.
    obtain ⟨p, hp, hdef⟩ := hf.wellFormed.defined c.pos t ⟨inst, hfetch, ht⟩ htemp
    have hs := hf.isLocal p c.pos t hdef ⟨inst, hfetch, ht⟩
    have hread : f.ReadsAt q t := ⟨_, hassert, List.mem_singleton.mpr rfl⟩
    have hpq := hf.wellFormed.lt_of_reads hdef hread htemp
    exact hc.passed q kind t hassert hq (hs.mono (Nat.le_of_lt hpq) (Nat.le_refl _))

end Reads

/-- The value of a variable is in its cell. -/
theorem read_var {x : OperandId} (h : f.isVar x = true) :
  f.read rt c x = c.cells x
  := by
  obtain ⟨n, hn⟩ := isVar_iff.mp h
  unfold read
  rw [hn]

/-! ### What a step writes -/

/-- What answers to a request for an operand. -/
theorem mem_answer {request : Request}
    (h : (id, v) ∈ match rt.serve request c.world with | some (v, _) => [(d, v)] | none => []) :
  id = d ∧ ∃ w, rt.serve request c.world = some (v, w)
  := by
  split at h
  · rename_i u w hserve
    cases List.mem_singleton.mp h
    exact ⟨rfl, w, hserve⟩
  · cases h

section Writes

variable (hf : f.Checked) (hrt : rt.Typed) (hc : f.Tracks c)
include hf hrt hc

/-- What an assignment writes is what it gives, and is the literal that its source equals. -/
theorem gives_of_assign {s : OperandId} (hfetch : f.fetch c.pos = some (.assign d s))
    (h : (id, v) ∈ f.writes rt locals c) :
  f.Gives f.May (.assign d s) id v ∧ ∀ k, f.Equals s k → v = .ofConstant k
  := by
  unfold writes at h
  rw [hfetch] at h
  simp only [Inst.action] at h
  have hk : ∀ kind, f.kind s = kind → (f.operand s).kind = kind := fun _ hk => hk
  cases hkind : f.kind s with
  | global n =>
    simp only [hkind] at h
    obtain ⟨rfl, w, hserve⟩ := mem_answer h
    simp [Gives, sourceTypes, hk _ hkind, Value.hasType_any, Equals, hkind, isTemp_iff]
  | contents n =>
    simp only [hkind] at h
    obtain ⟨rfl, w, hserve⟩ := mem_answer h
    simp [Gives, sourceTypes, hk _ hkind, Value.hasType_any, Equals, hkind, isTemp_iff]
  | function n =>
    simp only [hkind] at h
    obtain ⟨rfl, w, hserve⟩ := mem_answer h
    have := hrt.function_object n v _ w hserve
    simp [Gives, sourceTypes, hk _ hkind, this, Equals, hkind, isTemp_iff]
  | const k =>
    simp only [hkind] at h
    cases List.mem_singleton.mp h
    have hread : f.read rt c s = .ofConstant k := by
      unfold read
      rw [hkind]
    rw [hread]
    constructor
    · refine ⟨rfl, .inl ?_⟩
      rw [sourceTypes_const hkind]
      exact Value.hasType_ofConstant k
    · simp [Equals, hkind, isTemp_iff]
  | cell n =>
    simp only [hkind] at h
    cases List.mem_singleton.mp h
    have hread : f.read rt c s = rt.cell n := by
      unfold read
      rw [hkind]
    rw [hread]
    have := hrt.cell_object n
    simp [Gives, sourceTypes, hk _ hkind, this, Equals, hkind, isTemp_iff]
  | retval =>
    simp only [hkind] at h
    cases List.mem_singleton.mp h
    simp [Gives, sourceTypes, hk _ hkind, Value.hasType_any, Equals, hkind, isTemp_iff]
  | temp n =>
    simp only [hkind] at h
    cases List.mem_singleton.mp h
    have htemp := isTemp_iff.mpr ⟨n, hkind⟩
    obtain ⟨hmay, hconst⟩ := hc.read_temp hf hfetch (List.mem_singleton.mpr rfl) htemp
    rw [IR.Function.read_temp htemp]
    refine ⟨⟨rfl, .inr ⟨.inl htemp, hmay⟩⟩, ?_⟩
    rintro k (hconstant | ⟨-, hk⟩)
    · rw [hkind] at hconstant
      cases hconstant
    · exact hconst k hk
  | var n =>
    simp only [hkind] at h
    cases List.mem_singleton.mp h
    have hvar := isVar_iff.mpr ⟨n, hkind⟩
    rw [IR.Function.read_var hvar]
    refine ⟨⟨rfl, .inr ⟨.inr hvar, hc.read_var hf hfetch rfl hvar⟩⟩, ?_⟩
    simp [Equals, hkind, isTemp_iff]

/-- What a binary operation writes is what it gives. -/
theorem gives_of_binary {op : BinOp} {l r : OperandId} (hfetch : f.fetch c.pos = some (.binary op d l r))
    (h : (id, v) ∈ f.writes rt locals c) :
  f.Gives f.May (.binary op d l r) id v
  := by
  have hl : l ∈ (Inst.binary op d l r).uses := by simp [Inst.uses]
  have hr : r ∈ (Inst.binary op d l r).uses := by simp [Inst.uses]
  have htl := hf.wellFormed.isTemp_of_uses hfetch hl (by rintro _ ⟨⟩)
  have htr := hf.wellFormed.isTemp_of_uses hfetch hr (by rintro _ ⟨⟩)
  have hmay : ∀ types, v.HasType types → id = d →
      types = op.typesFrom (c.cells l).types (c.cells r).types →
      f.Gives f.May (.binary op d l r) id v := by
    rintro types hv hid rfl
    exact ⟨hid, _, _, (hc.read_temp hf hfetch hl htl).1, (hc.read_temp hf hfetch hr htr).1, hv⟩
  unfold writes at h
  rw [hfetch] at h
  by_cases hinline : op.isInline = true
  · have hne : op ≠ .add ∧ op ≠ .eq := by
      constructor <;> rintro rfl <;> cases hinline
    simp only [Inst.action_binary hne.1 hne.2, IR.Function.read_temp htl,
      IR.Function.read_temp htr] at h
    -- The operands are such that the operation is defined on them.
    obtain ⟨kind, hkind, hsl, hsr⟩ := hf.guarded.binary _ op d l r hfetch hinline
    have haccepts := BinOp.accepts_of_wants hkind (hc.admits hf hfetch hl htl hsl)
      (hc.admits hf hfetch hr htr hsr)
    have hperform : op.perform rt (c.cells l) (c.cells r) = op.compute? (c.cells l) (c.cells r) :=
      if_pos haccepts
    rw [hperform] at h
    cases hcompute : op.compute? (c.cells l) (c.cells r) with
    | none =>
      rw [hcompute] at h
      cases h
    | some u =>
      rw [hcompute] at h
      cases List.mem_singleton.mp h
      refine hmay _ (Value.hasType_types v) rfl ?_
      rw [BinOp.types_of_compute? hcompute]
      cases op <;> first | rfl | exact absurd rfl hne.1
  · have hop : op = .add ∨ op = .eq := by
      cases op <;> simp [BinOp.isInline] at hinline ⊢
    rcases hop with rfl | rfl
    · simp only [Inst.action, IR.Function.read_temp htl, IR.Function.read_temp htr] at h
      obtain ⟨rfl, w, hserve⟩ := mem_answer h
      exact hmay _ (hasType_sum hrt hserve) rfl rfl
    · simp only [Inst.action, IR.Function.read_temp htl, IR.Function.read_temp htr] at h
      obtain ⟨rfl, w, hserve⟩ := mem_answer h
      exact hmay _ (hrt.equals_bool _ _ v _ w hserve) rfl rfl

omit hrt in
/-- What a unary operation writes is what it gives. -/
theorem gives_of_unary {op : UnOp} {s : OperandId} (hfetch : f.fetch c.pos = some (.unary op d s))
    (h : (id, v) ∈ f.writes rt locals c) :
  f.Gives f.May (.unary op d s) id v
  := by
  have hs : s ∈ (Inst.unary op d s).uses := List.mem_singleton.mpr rfl
  have hts := hf.wellFormed.isTemp_of_uses hfetch hs fun _ => nofun
  have hadmits := hc.admits hf hfetch hs hts (hf.guarded.unary _ op d s hfetch)
  have hperform : op.perform rt (c.cells s) = op.compute? (c.cells s) := if_pos hadmits
  unfold writes at h
  rw [hfetch] at h
  simp only [Inst.action, IR.Function.read_temp hts, hperform] at h
  cases hcompute : op.compute? (c.cells s) with
  | none =>
    rw [hcompute] at h
    cases h
  | some u =>
    rw [hcompute] at h
    cases List.mem_singleton.mp h
    refine ⟨rfl, ⟨_, (hc.read_temp hf hfetch hs hts).1⟩, ?_⟩
    rw [← UnOp.types_of_compute? hcompute]
    exact Value.hasType_types v

/-- What a step writes is given by its instruction, and is a literal when the source is. -/
theorem gives_of_mem_writes (h : (id, v) ∈ f.writes rt locals c)
    (hid : f.isTemp id = true ∨ f.isVar id = true) :
  ∃ inst, f.fetch c.pos = some inst ∧ f.Gives f.May inst id v ∧
    ∀ s k, inst.source? = some s → f.Equals s k → v = .ofConstant k
  := by
  cases hfetch : f.fetch c.pos with
  | none =>
    unfold writes at h
    rw [hfetch] at h
    cases h
  | some inst =>
    refine ⟨inst, rfl, ?_⟩
    have hread : ∀ s ∈ inst.uses, (∀ d, inst ≠ .assign d s) → f.read rt c s = c.cells s ∧
        f.May s (c.cells s) ∧ ∀ k, (f.operand s).constant = some k → c.cells s = .ofConstant k := by
      intro s hs hinst
      have htemp := hf.wellFormed.isTemp_of_uses hfetch hs hinst
      exact ⟨IR.Function.read_temp htemp, hc.read_temp hf hfetch hs htemp⟩
    cases inst with
    | assign d s =>
      obtain ⟨hgives, hconst⟩ := gives_of_assign hf hrt hc hfetch h
      refine ⟨hgives, ?_⟩
      rintro s k ⟨⟩
      exact hconst k
    | binary op d l r => exact ⟨gives_of_binary hf hrt hc hfetch h, by rintro _ _ ⟨⟩⟩
    | unary op d s => exact ⟨gives_of_unary hf hc hfetch h, by rintro _ _ ⟨⟩⟩
    | fork s a b =>
      obtain ⟨hcell, hmay, hconst⟩ := hread s (List.mem_singleton.mpr rfl) (by rintro _ ⟨⟩)
      unfold writes at h
      rw [hfetch] at h
      simp only [Inst.action, hcell, List.mem_cons, List.not_mem_nil, or_false, Prod.mk.injEq] at h
      have hv : (id = a ∨ id = b) ∧ v = c.cells s := by
        rcases h with ⟨h₁, h₂⟩ | ⟨h₁, h₂⟩
        · exact ⟨.inl h₁, h₂⟩
        · exact ⟨.inr h₁, h₂⟩
      rw [hv.2]
      refine ⟨⟨hv.1, hmay⟩, ?_⟩
      rintro s k ⟨⟩ (hk | ⟨-, hk⟩)
      · obtain ⟨n, hn⟩ := isTemp_iff.mp
          (hf.wellFormed.isTemp_of_uses hfetch (List.mem_singleton.mpr rfl) (by rintro _ ⟨⟩))
        rw [hk] at hn
        cases hn
      · exact hconst k hk
    | store x s =>
      obtain ⟨hcell, hmay, -⟩ := hread s (List.mem_singleton.mpr rfl) (by rintro _ ⟨⟩)
      have hplace := isTemp_eq_false ((hf.wellFormed.fits _ _ hfetch).store_place x s rfl).2
      unfold writes at h
      rw [hfetch] at h
      rcases Inst.action_store f rt (f.read rt c) x s with haction | ⟨-, request, haction⟩
      · simp only [haction, List.mem_singleton, Prod.mk.injEq] at h
        obtain ⟨rfl, rfl⟩ := h
        rw [hplace] at hid
        refine ⟨⟨rfl, hid.resolve_left Bool.false_ne_true, ?_⟩, by rintro _ _ ⟨⟩⟩
        rw [hcell]
        exact hmay
      · simp only [haction] at h
        cases h
    | forceLoad x =>
      unfold writes at h
      rw [hfetch] at h
      simp only [Inst.action] at h
      split at h
      · cases List.mem_singleton.mp h
        exact ⟨rfl, by rintro _ _ ⟨⟩⟩
      · cases h
    | _ =>
      rw [writes_eq_nil hfetch rfl (by rintro _ _ ⟨⟩) (by rintro _ ⟨⟩)] at h
      cases h

/-- What a step writes into a temp or a variable agrees with what is known about it. -/
theorem sound_of_mem_writes (h : (id, v) ∈ f.writes rt locals c)
    (hid : f.isTemp id = true ∨ f.isVar id = true) :
  f.May id v ∧
    (f.isTemp id = true → ∀ k, (f.operand id).constant = some k → v = .ofConstant k)
  := by
  obtain ⟨inst, hfetch, hgives, hsource⟩ := gives_of_mem_writes hf hrt hc h hid
  refine ⟨.flow ⟨c.pos, hfetch⟩ hgives, ?_⟩
  intro htemp k hk
  have hdef := hgives.mem_defs (hf.wellFormed.fits _ _ hfetch) htemp
  obtain ⟨s, hs, heq⟩ := hf.hinted.constants c.pos inst id k hfetch hdef hk
  exact hsource s k hs heq

end Writes

/-! ### Steps and runs -/

/-- What is certain at a state of a checked function is certain after a step, if the runtime gives
values of the right types. -/
theorem Tracks.step (hf : f.Checked) (hrt : rt.Typed) (hc : f.Tracks c)
    (hstep : f.step rt locals c = .running c') :
  f.Tracks c'
  := by
  obtain ⟨hcells, hpos⟩ := step_running hstep
  have wf := hf.wellFormed
  have hnew : ∀ id, (id, c'.cells id) ∈ f.writes rt locals c ∨
      c'.cells id = c.cells id ∧ ∀ v, (id, v) ∉ f.writes rt locals c := by
    intro id
    rw [hcells]
    exact c.cells.fill_cases _ id
  have htarget : ∀ {id v inst}, (id, v) ∈ f.writes rt locals c → f.fetch c.pos = some inst →
      id ∈ inst.targets f := by
    intro id v inst h hfetch
    rw [← map_fst_writes hstep hfetch]
    exact List.mem_map_of_mem h
  have hwritten : ∀ {id inst}, f.fetch c.pos = some inst → id ∈ inst.targets f →
      (id, c'.cells id) ∈ f.writes rt locals c := by
    intro id inst hfetch h
    rw [← map_fst_writes hstep hfetch] at h
    obtain ⟨⟨id', v⟩, hmem, rfl⟩ := List.mem_map.mp h
    exact (hnew id').resolve_right fun ⟨_, hne⟩ => hne v hmem
  -- A stretch without labels that ends here went on from the position before.
  have hstraight : ∀ q, q < c'.pos → f.Straight q c'.pos → c'.pos = c.pos + 1 := by
    intro q hq hs
    rcases hpos with hnext | ⟨inst, l, -, -, hl, -⟩
    · exact hnext
    · exact absurd ((wf.labels l _).mp hl) (hs c'.pos l hq (Nat.le_refl _))
  constructor
  · intro q t hdef hq hs
    have htemp := (wf.isTemp_of_defines hdef).2
    rcases hnew t with hw | ⟨heq, hne⟩
    · obtain ⟨hmay, hconst⟩ := sound_of_mem_writes hf hrt hc hw (.inl htemp)
      exact ⟨hmay, hconst htemp⟩
    · have hnext := hstraight q hq hs
      have hlt : q < c.pos := by
        rcases Nat.lt_or_eq_of_le (Nat.le_of_lt_succ (hnext ▸ hq)) with hlt | rfl
        · exact hlt
        · obtain ⟨inst, hfetch, ht⟩ := hdef
          have hmem : t ∈ inst.targets f := by
            cases inst <;> first | exact ht | cases ht
          exact absurd (hwritten hfetch hmem) (hne _)
      rw [heq]
      exact hc.temp q t hdef hlt (hs.mono (Nat.le_refl _) (by omega))
  · intro q kind t hassert hq hs
    have hnext := hstraight q hq hs
    have htemp := wf.isTemp_of_uses hassert (List.mem_singleton.mpr rfl) fun _ => nofun
    rcases Nat.lt_or_eq_of_le (Nat.le_of_lt_succ (hnext ▸ hq)) with hlt | rfl
    · rcases hnew t with hw | ⟨heq, -⟩
      · -- The temp was defined before the assertion, so not now.
        obtain ⟨inst, hfetch, -, -⟩ := gives_of_mem_writes hf hrt hc hw (.inl htemp)
        have hdef := Inst.mem_defs_of_targets (wf.fits _ _ hfetch) (htarget hw hfetch) htemp
        have hread : f.ReadsAt q t := ⟨_, hassert, List.mem_singleton.mpr rfl⟩
        have := wf.lt_of_reads ⟨inst, hfetch, hdef⟩ hread htemp
        omega
      · rw [heq]
        exact hc.passed q kind t hassert hlt (hs.mono (Nat.le_refl _) (by omega))
    · have hnil : f.writes rt locals c = [] := writes_eq_nil hassert rfl nofun nofun
      have hread : f.read rt c t = c.cells t := IR.Function.read_temp htemp
      rw [hcells, hnil, Cells.fill_nil, ← hread]
      exact admits_of_step hstep hassert
  · intro q x hopens hx hq
    rcases hnew x with hw | ⟨heq, hne⟩
    · exact (sound_of_mem_writes hf hrt hc hw (.inr hx)).1
    · have hlt : q < c.pos := by
        rcases hpos with hnext | ⟨inst, l, hfetch, hl, -, -⟩
        · rcases Nat.lt_or_eq_of_le (Nat.le_of_lt_succ (hnext ▸ hq)) with hlt | rfl
          · exact hlt
          · obtain ⟨inst, hfetch⟩ := hopens.exists_fetch
            have hmem : x ∈ inst.targets f := by
              apply Inst.mem_targets_of_isVar hx
              simpa [hfetch] using hopens.fills
            exact absurd (hwritten hfetch hmem) (hne _)
        · -- No jump stands in the code that opens the function.
          rcases Nat.lt_or_ge q c.pos with hlt | hge
          · exact hlt
          · have := (hopens.first c.pos inst hge hfetch).1
            rw [hl] at this
            cases this
      rw [heq]
      exact hc.var q x hopens hx hlt

/-- On entry no code has been passed that makes anything certain. -/
theorem tracks_start (locals : Nat → Value) (scratch : Cells) (world : World) :
  f.Tracks (f.start locals scratch world)
  := by
  constructor <;> intros <;> exact absurd ‹_ < 0› (Nat.not_lt_zero _)

/-- What the code that was passed makes certain is true all along a run. -/
theorem Tracks.run (hf : f.Checked) (hrt : rt.Typed) (hc : f.Tracks c) {n : Nat}
    (h : f.run rt locals n c = .running c') :
  f.Tracks c'
  := Progress.invariant_of_run (fun _ _ hd hstep => hd.step hf hrt hstep) hc h

/-- What is written at a state that a run comes to has a type that was announced and is the
literal that was announced. -/
theorem Checked.hints_hold (hf : f.Checked) (hrt : rt.Typed) {scratch : Cells} {world : World} {n : Nat}
    (hrun : f.run rt locals n (f.start locals scratch world) = .running c)
    (h : (id, v) ∈ f.writes rt locals c) :
  (f.isTemp id = true ∨ f.isVar id = true → (f.operand id).types ≠ .empty →
    v.HasType (f.operand id).types) ∧
  (f.isTemp id = true → ∀ k, (f.operand id).constant = some k → v = .ofConstant k)
  := by
  have hc := (tracks_start locals scratch world).run hf hrt hrun
  constructor
  · intro hid hne
    have hmay := (sound_of_mem_writes hf hrt hc h hid).1
    exact hf.hinted.hasType (hmay.lt_size hf.wellFormed) hmay hne
  · intro htemp
    exact (sound_of_mem_writes hf hrt hc h (.inl htemp)).2 htemp

end Function

end StackCompiler.IR
