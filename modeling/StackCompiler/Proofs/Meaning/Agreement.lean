import StackCompiler.Proofs.Meaning.Refinement
import StackCompiler.Proofs.Passes.Paths
import StackCompiler.Proofs.Typing.Soundness

/-!
# Agreement on what is still of use

Code that was changed in place need not keep every cell as it was.  Two states agree when they
are at the same position, with the same world, result and effects, and have the same values in
the cells that are of use there: temps defined in the stretch of code that leads to the
position, and variables that may still be read.  Steps that do the same keep states in
agreement, and code is preserved by code that follows it in this way.
-/

namespace StackCompiler.IR

variable {World : Type}

/-! ### Where control goes -/

/-- The operands that an action fills. -/
def Action.fills : Action → List OperandId
  | fill writes => writes.map Prod.fst
  | ask _ (.operand id) => [id]
  | reload var => [var]
  | _ => []

/-- What an instruction defines it fills, unless it fails. -/
theorem Inst.mem_fills_of_mem_defs {f : Function} {rt : Runtime World} {value : OperandId → Value}
    {inst : Inst} {t : OperandId} (ht : t ∈ inst.defs) (hfail : inst.action f rt value ≠ .fail) :
  t ∈ (inst.action f rt value).fills
  := by
  have hfillWith : ∀ d v?, t ∈ [d] → Action.fillWith d v? ≠ .fail → t ∈ (Action.fillWith d v?).fills := by
    intro d v? htd hne
    cases v? with
    | none => exact absurd rfl hne
    | some v => exact htd
  cases inst with
  | assign d s =>
    rcases action_assign f rt value d s with haction | ⟨request, -, haction⟩
    · rw [haction]
      exact ht
    · rw [haction]
      exact ht
  | binary op d l r =>
    by_cases hop : op = .add ∨ op = .eq
    · rcases hop with rfl | rfl <;> exact ht
    · rw [not_or] at hop
      rw [action_binary hop.1 hop.2] at hfail ⊢
      exact hfillWith d _ ht hfail
  | unary op d s => exact hfillWith d _ ht hfail
  | fork s a b => exact ht
  | _ => cases ht

/-- What an instruction comes to: only loads on entry take a value from the locals, only jumps
go elsewhere, and only returns return. -/
theorem Inst.action_cases (f : Function) (rt : Runtime World) (value : OperandId → Value) (inst : Inst) :
  (∃ writes, inst.action f rt value = .fill writes) ∨
  (∃ request target, inst.action f rt value = .ask request target) ∨
  inst.action f rt value = .fail ∨
  (∃ x, inst = .forceLoad x ∧ inst.action f rt value = .reload x) ∨
  (∃ l, inst.target? = some l ∧ inst.action f rt value = .goto l) ∨
  ∃ v, inst = .ret v ∧ inst.action f rt value = .ret (value v)
  := by
  have hfillWith : ∀ d v?, (∃ writes, Action.fillWith d v? = .fill writes) ∨ Action.fillWith d v? = .fail := by
    intro d v?
    cases v? with
    | none => exact .inr rfl
    | some v => exact .inl ⟨_, rfl⟩
  cases inst with
  | assign d s =>
    rcases action_assign f rt value d s with haction | ⟨request, -, haction⟩
    · exact .inl ⟨_, haction⟩
    · exact .inr (.inl ⟨_, _, haction⟩)
  | store x s =>
    rcases action_store f rt value x s with haction | ⟨-, request, haction⟩
    · exact .inl ⟨_, haction⟩
    · exact .inr (.inl ⟨_, _, haction⟩)
  | forceLoad x => exact .inr (.inr (.inr (.inl ⟨x, rfl, rfl⟩)))
  | binary op d l r =>
    by_cases hop : op = .add ∨ op = .eq
    · rcases hop with rfl | rfl <;> exact .inr (.inl ⟨_, _, rfl⟩)
    · rw [not_or] at hop
      rw [action_binary hop.1 hop.2]
      rcases hfillWith d (op.perform rt (value l) (value r)) with h | h
      · exact .inl h
      · exact .inr (.inr (.inl h))
  | unary op d s =>
    rcases hfillWith d (op.perform rt (value s)) with h | h
    · exact .inl h
    · exact .inr (.inr (.inl h))
  | call | allocClosure | helper => exact .inr (.inl ⟨_, _, rfl⟩)
  | ret v => exact .inr (.inr (.inr (.inr (.inr ⟨v, rfl, rfl⟩))))
  | label | fork => exact .inl ⟨_, rfl⟩
  | jump l | shortJump l => exact .inr (.inr (.inr (.inr (.inl ⟨l, rfl, rfl⟩))))
  | condJump cond l =>
    by_cases hcond : value cond = .bool true
    · exact .inr (.inr (.inr (.inr (.inl ⟨l, rfl, if_pos hcond⟩))))
    · exact .inl ⟨_, if_neg hcond⟩
  | assertion kind arg =>
    by_cases hadmits : kind.admits (value arg) = true
    · exact .inl ⟨_, if_pos hadmits⟩
    · exact .inr (.inr (.inl (if_neg hadmits)))

/-- Only an entry load comes to a load from the array of locals. -/
theorem Inst.eq_forceLoad_of_action {f : Function} {rt : Runtime World} {value : OperandId → Value}
    {inst : Inst} {x : OperandId} (h : inst.action f rt value = .reload x) :
  inst = .forceLoad x
  := by
  rcases inst.action_cases f rt value with ⟨_, h'⟩ | ⟨_, _, h'⟩ | h' | ⟨y, hy, h'⟩ | ⟨_, -, h'⟩ | ⟨_, -, h'⟩ <;>
    cases h'.symm.trans h
  exact hy

/-- An instruction after which control does not go on jumps or returns. -/
theorem Inst.action_of_goesOn_eq_false {f : Function} {rt : Runtime World} {value : OperandId → Value}
    {inst : Inst} (h : inst.goesOn = false) :
  (∃ v, inst.action f rt value = .ret v) ∨ ∃ l, inst.action f rt value = .goto l
  := by
  cases inst with
  | ret v => exact .inl ⟨_, rfl⟩
  | jump l | shortJump l => exact .inr ⟨l, rfl⟩
  | _ => cases h

/-- A cell is the same after the same writes if it was the same or is written. -/
theorem Cells.fill_congr {cells cells' : Cells} {writes : List (OperandId × Value)} {id : OperandId}
    (h : cells' id = cells id ∨ id ∈ writes.map Prod.fst) :
  cells'.fill writes id = cells.fill writes id
  := by
  induction writes generalizing cells cells' with
  | nil => exact h.resolve_right nofun
  | cons w writes ih =>
    apply ih
    by_cases hid : id = w.1
    · left
      simp [hid]
    · rcases h with h | h
      · left
        simp [hid, h]
      · right
        exact (List.mem_cons.mp h).resolve_left hid

/-- A cell that is not written is as it was. -/
theorem Cells.fill_of_not_mem {cells : Cells} {writes : List (OperandId × Value)} {id : OperandId}
    (h : id ∉ writes.map Prod.fst) :
  cells.fill writes id = cells id
  := by
  rcases cells.fill_cases writes id with hmem | ⟨heq, -⟩
  · exact absurd (List.mem_map_of_mem hmem) h
  · exact heq

namespace Function

variable {f f' : Function} {rt : Runtime World} {locals : Nat → Value} {c c' d d' : Config World}

/-- A step from one state to another goes where control may go from the position of the first. -/
theorem flows_of_step (h : f.step rt locals c = .running d) :
  f.Flows c.pos d.pos
  := by
  unfold step at h
  split at h
  · rename_i hlt
    split at h
    · rename_i inst hfetch
      have hnext : d.pos = c.pos + 1 → (∀ l, inst.action f rt (f.read rt c) ≠ .goto l) →
          (∀ v, inst.action f rt (f.read rt c) ≠ .ret v) → f.Flows c.pos d.pos := by
        intro hpos hgoto hret
        rw [hpos]
        apply Flows.next hfetch
        cases hgoes : inst.goesOn with
        | true => rfl
        | false =>
          rcases Inst.action_of_goesOn_eq_false hgoes with ⟨v, hv⟩ | ⟨l, hl⟩
          · exact absurd hv (hret v)
          · exact absurd hl (hgoto l)
      cases haction : inst.action f rt (f.read rt c) with
      | fill writes =>
        rw [haction] at h hnext
        cases h
        exact hnext rfl (by rintro _ ⟨⟩) (by rintro _ ⟨⟩)
      | ask request target =>
        rw [haction] at h hnext
        simp only [perform] at h
        split at h
        · cases h
          apply hnext ?_ (by rintro _ ⟨⟩) (by rintro _ ⟨⟩)
          cases target <;> rfl
        · cases h
      | reload var =>
        rw [haction] at h hnext
        simp only [perform] at h
        split at h <;> cases h <;> exact hnext rfl (by rintro _ ⟨⟩) (by rintro _ ⟨⟩)
      | goto l =>
        rw [haction] at h
        simp only [perform] at h
        split at h
        · rename_i q hq
          cases h
          exact Flows.jump hfetch (Inst.target?_of_goto haction) hq
        · cases h
      | ret v =>
        rw [haction] at h
        cases h
      | fail =>
        rw [haction] at h
        cases h
    · rename_i hfetch
      cases h
      exact Flows.skip hlt hfetch
  · cases h

/-! ### Cells of use -/

/-- The cell of an operand is of use at a position: it is that of a temp defined in the stretch
of code that leads there, or of a variable that may still be read. -/
def Current (f : Function) (p : Nat) (id : OperandId) : Prop :=
  (∃ q, f.DefinesAt q id ∧ q < p ∧ f.Straight q p) ∨
    f.isVar id = true ∧ ∃ r, f.LoadsAt r id ∧ Relation.ReflTransGen f.Flows p r

/-- A cell of use was of use before, or was defined just now. -/
theorem Current.back (wf : f.WellFormed) {p q : Nat} {id : OperandId} (hflow : f.Flows p q)
    (h : f.Current q id) :
  f.Current p id ∨ f.DefinesAt p id
  := by
  rcases h with ⟨r, hdef, hlt, hs⟩ | ⟨hvar, r, hload, hpath⟩
  · have hq : q = p + 1 := by
      cases hflow with
      | next | skip => rfl
      | jump _ _ hlabel => exact absurd ((wf.labels _ q).mp hlabel) (hs q _ hlt (Nat.le_refl _))
    subst hq
    rcases Nat.lt_or_eq_of_le (Nat.le_of_lt_succ hlt) with hrp | rfl
    · exact .inl (.inl ⟨r, hdef, hrp, hs.mono (Nat.le_refl _) (Nat.le_succ _)⟩)
    · exact .inr hdef
  · exact .inl (.inr ⟨hvar, r, hload, .head hflow hpath⟩)

/-- What an instruction finds in cells is of use. -/
theorem current_of_uses (wf : f.WellFormed) (hlocal : f.Local) {p : Nat} {inst : Inst}
    (hfetch : f.fetch p = some inst) {id : OperandId} (hid : id ∈ inst.uses)
    (hvalue : f.isTemp id = true ∨ f.isVar id = true) :
  f.Current p id
  := by
  have hread : f.ReadsAt p id := ⟨inst, hfetch, hid⟩
  rcases hvalue with htemp | hvar
  · obtain ⟨q, hlt, hdef⟩ := wf.defined p id hread htemp
    exact .inl ⟨q, hdef, hlt, hlocal q p id hdef hread⟩
  · rcases (wf.fits p inst hfetch).use_temp id hid with htemp | ⟨d, rfl⟩
    · rw [isVar_eq_false htemp] at hvar
      cases hvar
    · exact .inr ⟨hvar, p, ⟨d, hfetch⟩, .refl⟩

/-! ### Agreement -/

/-- Two states are at the same position and alike in everything that is of use there. -/
structure Agrees (f f' : Function) (c c' : Config World) : Prop where
  pos : c'.pos = c.pos
  result : c'.result = c.result
  world : c'.world = c.world
  trace : effects c'.trace = effects c.trace
  cells : ∀ id, id < f.operands.size → f'.Current c.pos id → c'.cells id = c.cells id

/-- The step from one state is matched by a step from the other: to states that agree, or to the
return of the same value. -/
structure Follows (f f' : Function) (rt : Runtime World) (locals : Nat → Value) (c c' : Config World) :
    Prop where
  running : ∀ d, f.step rt locals c = .running d →
    ∃ d', f'.step rt locals c' = .running d' ∧ f.Agrees f' d d'
  returned : ∀ v w trace, f.step rt locals c = .ended (.returned v w trace) →
    ∃ trace', f'.step rt locals c' = .ended (.returned v w trace') ∧ effects trace' = effects trace

/-- An action has the same effect on states that agree, and what it fills agrees afterwards. -/
theorem Agrees.perform (hlabels : ∀ l, f'.labels.at? l = f.labels.at? l) (hc : f.Agrees f' c c')
    {action : Action}
    (hreload : ∀ x, action = .reload x → f.isVar x = true ∧ f'.kind x = f.kind x)
    (hd : f.perform rt locals c action = .running d) :
  ∃ d', f'.perform rt locals c' action = .running d' ∧ d'.pos = d.pos ∧ d'.result = d.result ∧
    d'.world = d.world ∧ effects d'.trace = effects d.trace ∧
    ∀ id, c'.cells id = c.cells id ∨ id ∈ action.fills → d'.cells id = d.cells id
  := by
  have hnext : c'.next.pos = c.next.pos := congrArg (· + 1) hc.pos
  cases action with
  | fill writes =>
    cases hd
    exact ⟨_, rfl, hnext, hc.result, hc.world, hc.trace, fun _ => Cells.fill_congr⟩
  | ask request target =>
    simp only [Function.perform, hc.world] at hd ⊢
    cases hserve : rt.serve request c.world with
    | none =>
      rw [hserve] at hd
      cases hd
    | some answer =>
      obtain ⟨u, w⟩ := answer
      rw [hserve] at hd
      cases hd
      have htrace : effects (c'.trace ++ [request]) = effects (c.trace ++ [request]) := by
        rw [effects_append, effects_append, hc.trace]
      cases target with
      | operand id =>
        refine ⟨_, rfl, hnext, hc.result, rfl, htrace, fun other hother => ?_⟩
        change c'.cells.fill [(id, u)] other = c.cells.fill [(id, u)] other
        exact Cells.fill_congr hother
      | result => exact ⟨_, rfl, hnext, rfl, rfl, htrace, fun _ h => h.resolve_right List.not_mem_nil⟩
      | nowhere => exact ⟨_, rfl, hnext, hc.result, rfl, htrace, fun _ h => h.resolve_right List.not_mem_nil⟩
  | reload var =>
    obtain ⟨hvar, hkind⟩ := hreload var rfl
    simp only [Function.perform, entryValue_congr hkind] at hd ⊢
    obtain ⟨v, hv⟩ := Option.isSome_iff_exists.mp ((isSome_entryValue locals var).trans hvar)
    rw [hv] at hd ⊢
    cases hd
    refine ⟨_, rfl, hnext, hc.result, hc.world, hc.trace, fun other hother => ?_⟩
    change c'.cells.fill [(var, v)] other = c.cells.fill [(var, v)] other
    exact Cells.fill_congr hother
  | goto l =>
    simp only [Function.perform, hlabels] at hd ⊢
    cases hl : f.labels.at? l with
    | none =>
      rw [hl] at hd
      cases hd
    | some pos =>
      rw [hl] at hd
      cases hd
      exact ⟨_, rfl, rfl, hc.result, hc.world, hc.trace, fun _ h => h.resolve_right List.not_mem_nil⟩
  | ret v => cases hd
  | fail => cases hd

/-- An action that returns in one of two states that agree returns the same in the other. -/
theorem Agrees.perform_returned (hc : f.Agrees f' c c') {action : Action} {v : Value} {w : World}
    {trace : List Request}
    (hd : f.perform rt locals c action = .ended (.returned v w trace)) :
  f'.perform rt locals c' action = .ended (.returned v w c'.trace) ∧ trace = c.trace
  := by
  cases action with
  | ret u =>
    cases hd
    exact ⟨by simp only [Function.perform, hc.world], rfl⟩
  | fill writes => cases hd
  | ask request target =>
    simp only [Function.perform] at hd
    split at hd <;> cases hd
  | reload var =>
    simp only [Function.perform] at hd
    split at hd <;> cases hd
  | goto l =>
    simp only [Function.perform] at hd
    split at hd <;> cases hd
  | fail => cases hd

section Follows

variable (h : f.InPlace f') (wf : f.WellFormed) (wf' : f'.WellFormed) (hc : f.Agrees f' c c')
include h wf wf' hc

/-- Instructions that come to the same are followed. -/
theorem Agrees.follows_of_action {i i' : Inst} (hfetch : f.fetch c.pos = some i)
    (hfetch' : f'.fetch c.pos = some i')
    (haction : i'.action f' rt (f'.read rt c') = i.action f rt (f.read rt c)) :
  f.Follows f' rt locals c c'
  := by
  have hlt := lt_size_of_fetch hfetch
  have hstep : f.step rt locals c = _ := step_of_fetch hlt hfetch
  have hstep' : f'.step rt locals c' = f'.perform rt locals c' (i.action f rt (f.read rt c)) := by
    rw [← haction]
    apply step_of_fetch
    · rwa [hc.pos, h.size_eq]
    · rwa [hc.pos]
  constructor
  · intro d hd
    rw [hstep] at hd
    have hreload : ∀ x, i.action f rt (f.read rt c) = .reload x →
        f.isVar x = true ∧ f'.kind x = f.kind x := by
      intro x hx
      obtain ⟨hlt', hvar⟩ := (wf.fits _ _ hfetch).load_var x (Inst.eq_forceLoad_of_action hx)
      exact ⟨hvar, h.kind_eq x hlt'⟩
    obtain ⟨d', hd', hpos, hresult, hworld, htrace, hcells⟩ := hc.perform h.labels_eq hreload hd
    rw [← hstep'] at hd'
    refine ⟨d', hd', hpos, hresult, hworld, htrace, fun id hid hcurrent => hcells id ?_⟩
    have hflow := flows_of_step hd'
    rw [hc.pos, hpos] at hflow
    rcases hcurrent.back wf' hflow with hbefore | ⟨j, hj, hdef⟩
    · exact .inl (hc.cells id hid hbefore)
    · right
      rw [hfetch'] at hj
      cases hj
      rw [← haction]
      apply Inst.mem_fills_of_mem_defs hdef
      intro hfail
      rw [hstep', ← haction, hfail] at hd'
      cases hd'
  · intro v w trace hd
    rw [hstep] at hd
    obtain ⟨hd', rfl⟩ := hc.perform_returned hd
    exact ⟨c'.trace, by rw [hstep', hd'], hc.trace⟩

omit wf in
/-- An operand `id` that an instruction uses and that is not remote has the same value in two states
that agree. -/
theorem Agrees.read_eq (hlocal' : f'.Local) {inst : Inst} (hfetch' : f'.fetch c.pos = some inst)
    {id : OperandId} (hid : id ∈ inst.uses) (hlt : id < f.operands.size)
    (hremote : (f.kind id).isRemote = false) :
  f'.read rt c' id = f.read rt c id
  := by
  have hkind := h.kind_eq id hlt
  have hcell : f'.isTemp id = true ∨ f'.isVar id = true → c'.cells id = c.cells id :=
    fun hvalue => hc.cells id hlt (current_of_uses wf' hlocal' hfetch' hid hvalue)
  cases hk : f.kind id with
  | temp n =>
    apply read_congr hkind hc.result
    exact hcell (.inl (isTemp_iff.mpr ⟨n, hkind.trans hk⟩))
  | var n =>
    apply read_congr hkind hc.result
    exact hcell (.inr (isVar_iff.mpr ⟨n, hkind.trans hk⟩))
  | global | contents | function =>
    rw [hk] at hremote
    cases hremote
  | const | cell =>
    unfold read
    rw [hkind, hk]
  | retval =>
    unfold read
    rw [hkind, hk]
    apply hc.result

/-- An instruction that stays is followed. -/
theorem Agrees.follows_of_fetch_eq (hlocal' : f'.Local) (hsame : f'.fetch c.pos = f.fetch c.pos) :
  f.Follows f' rt locals c c'
  := by
  cases hfetch : f.fetch c.pos with
  | some inst =>
    rw [hfetch] at hsame
    apply hc.follows_of_action h wf wf' hfetch hsame
    have hfits := wf.fits _ _ hfetch
    apply Inst.action_congr
    · intro id hid hremote
      apply hc.read_eq h wf' hlocal' hsame hid (hfits.use_lt id hid)
      rcases hfits.use_temp id hid with htemp | ⟨d, hd⟩
      · obtain ⟨n, hn⟩ := isTemp_iff.mp htemp
        rw [hn]
        rfl
      · exact hremote d hd
    · rintro id (hid | ⟨s, hs⟩)
      · exact h.kind_eq id (hfits.use_lt id hid)
      · exact h.kind_eq id (hfits.store_place id s hs).1
  | none =>
    rw [hfetch] at hsame
    rcases Nat.lt_or_ge c.pos f.size with hlt | hge
    · have hstep : f.step rt locals c = .running c.next := step_of_fetch_none hlt hfetch
      have hstep' : f'.step rt locals c' = .running c'.next := by
        apply step_of_fetch_none
        · rwa [hc.pos, h.size_eq]
        · rwa [hc.pos]
      constructor
      · intro d hd
        rw [hstep] at hd
        cases hd
        have hflow := flows_of_step hstep'
        refine ⟨_, hstep', congrArg (· + 1) hc.pos, hc.result, hc.world, hc.trace, fun id hid hcurrent => ?_⟩
        rw [hc.pos, show c'.next.pos = c'.pos + 1 from rfl, hc.pos] at hflow
        rcases hcurrent.back wf' hflow with hbefore | ⟨j, hj, -⟩
        · exact hc.cells id hid hbefore
        · rw [hsame] at hj
          cases hj
      · intro v w trace hd
        rw [hstep] at hd
        cases hd
    · have hstep : f.step rt locals c = _ := step_of_size_le hge
      have hstep' : f'.step rt locals c' = .ended (.returned .none c'.world c'.trace) := by
        apply step_of_size_le
        rwa [hc.pos, h.size_eq]
      constructor
      · intro d hd
        rw [hstep] at hd
        cases hd
      · intro v w trace hd
        rw [hstep] at hd
        cases hd
        exact ⟨c'.trace, by rw [hstep', hc.world], hc.trace⟩

end Follows

/-- Where a run that returns is followed, either both return now, or both go on. -/
theorem Follows.leap (h : f.Follows f' rt locals c c') {n : Nat} {v : Value} {w : World}
    {trace : List Request} (hn : f.run rt locals n c = .ended (.returned v w trace)) :
  (∃ m trace', f'.run rt locals m c' = .ended (.returned v w trace') ∧ effects trace' = effects trace) ∨
  ∃ d d', f.step rt locals c = .running d ∧ f'.step rt locals c' = .running d' ∧ f.Agrees f' d d'
  := by
  cases hstep : f.step rt locals c with
  | running d =>
    right
    obtain ⟨d', hd', hagrees⟩ := h.running d hstep
    exact ⟨d, d', rfl, hd', hagrees⟩
  | ended o =>
    left
    cases Progress.ended_unique (n := 1) hn (by rw [Progress.run_one, hstep])
    obtain ⟨trace', hd', htrace⟩ := h.returned v w trace hstep
    exact ⟨1, trace', (Progress.run_one _).trans hd', htrace⟩

/-- What a run returns is returned by a run that meets it again and again in states that agree. -/
theorem returns_of_leaps {I : Config World → Prop}
    (hleap : ∀ c c' n v w trace, I c → f.Agrees f' c c' →
      f.run rt locals n c = .ended (.returned v w trace) →
      (∃ m trace', f'.run rt locals m c' = .ended (.returned v w trace') ∧
        effects trace' = effects trace) ∨
      ∃ k d m d', f.run rt locals (k + 1) c = .running d ∧ f'.run rt locals m c' = .running d' ∧
        I d ∧ f.Agrees f' d d')
    (hi : I c) (hc : f.Agrees f' c c') {v : Value} {w : World} {es : List Request}
    (h : f.Returns rt locals c v w es) :
  f'.Returns rt locals c' v w es
  := by
  obtain ⟨n, trace, hrun, heffects⟩ := h
  have hmeet : ∀ c c' n, I c ∧ f.Agrees f' c c' →
      Progress.run (f.step rt locals) n c = .ended (.returned v w trace) →
      (∃ m o, Progress.run (f'.step rt locals) m c' = .ended o ∧
        ∃ trace', o = .returned v w trace' ∧ effects trace' = effects trace) ∨
      ∃ k d m d', Progress.run (f.step rt locals) (k + 1) c = .running d ∧
        Progress.run (f'.step rt locals) m c' = .running d' ∧ I d ∧ f.Agrees f' d d' := by
    rintro c c' n ⟨hi, hc⟩ hn
    rcases hleap c c' n v w trace hi hc hn with ⟨m, trace', hm, htrace⟩ | hgo
    · exact .inl ⟨m, _, hm, trace', rfl, htrace⟩
    · exact .inr hgo
  obtain ⟨m, o, hm, trace', rfl, htrace⟩ := Progress.exists_run_of_leaps
    (E := fun _ o => ∃ trace', o = Outcome.returned v w trace' ∧ effects trace' = effects trace)
    hmeet ⟨hi, hc⟩ hrun
  exact ⟨m, trace', hm, htrace.trans heffects⟩

/-- Code is preserved by code whose runs meet its runs again and again. -/
theorem InPlace.preservedBy_of_leaps (h : f.InPlace f') {I : (Nat → Value) → Config World → Prop}
    (hstart : ∀ locals scratch world, I locals (f.start locals scratch world))
    (hleap : ∀ locals c c' n v w trace, I locals c → f.Agrees f' c c' →
      f.run rt locals n c = .ended (.returned v w trace) →
      (∃ m trace', f'.run rt locals m c' = .ended (.returned v w trace') ∧
        effects trace' = effects trace) ∨
      ∃ k d m d', f.run rt locals (k + 1) c = .running d ∧ f'.run rt locals m c' = .running d' ∧
        I locals d ∧ f.Agrees f' d d') :
  f.PreservedBy rt f'
  := by
  intro locals scratch world v w es
  apply returns_of_leaps (hleap locals) (hstart locals scratch world)
  refine ⟨rfl, rfl, rfl, rfl, fun id hid _ => ?_⟩
  unfold start
  dsimp only
  rw [entryValue_congr (h.kind_eq id hid)]

/-- Code is preserved by code that follows it from every state that a run may come to. -/
theorem InPlace.preservedBy (h : f.InPlace f') {I : (Nat → Value) → Config World → Prop}
    (hstart : ∀ locals scratch world, I locals (f.start locals scratch world))
    (hkeep : ∀ locals c d, I locals c → f.step rt locals c = .running d → I locals d)
    (hfollows : ∀ locals c c', I locals c → f.Agrees f' c c' → f.Follows f' rt locals c c') :
  f.PreservedBy rt f'
  := by
  apply h.preservedBy_of_leaps hstart
  intro locals c c' n v w trace hi hc hn
  rcases (hfollows locals c c' hi hc).leap hn with hend | ⟨d, d', hd, hd', hagrees⟩
  · exact .inl hend
  · exact .inr ⟨0, d, 1, d', (Progress.run_one c).trans hd, (Progress.run_one c').trans hd',
      hkeep locals c d hi hd, hagrees⟩

end Function

end StackCompiler.IR
