import StackCompiler.Proofs.Meaning.Agreement

/-!
# Code that can go

Definitions that nothing reads, assertions, stores to variables that are not read again and
sides of forks that nothing reads can go, and a copy can be read through its source.  In each
case states keep in agreement: what is missing from a cell is of no use any more.
-/

namespace StackCompiler.IR

variable {World : Type}

/-- An instruction without effects fills cells, asks for what is no effect, or fails. -/
theorem Inst.action_of_isPure (f : Function) (rt : Runtime World) (value : OperandId → Value) {inst : Inst}
    (h : inst.isPure = true) :
  (∃ writes, inst.action f rt value = .fill writes) ∨
  (∃ request d, request.isEffect = false ∧ inst.action f rt value = .ask request (.operand d)) ∨
  inst.action f rt value = .fail
  := by
  cases inst with
  | assign d s =>
    rcases action_assign f rt value d s with haction | ⟨request, heffect, haction⟩
    · exact .inl ⟨_, haction⟩
    · exact .inr (.inl ⟨request, d, heffect, haction⟩)
  | binary op d l r =>
    by_cases hop : op = .add ∨ op = .eq
    · rcases hop with rfl | rfl <;> exact .inr (.inl ⟨_, d, rfl, rfl⟩)
    · rw [not_or] at hop
      rw [action_binary hop.1 hop.2]
      cases op.perform rt (value l) (value r) with
      | none => exact .inr (.inr rfl)
      | some v => exact .inl ⟨_, rfl⟩
  | unary op d s =>
    simp only [action]
    cases op.perform rt (value s) with
    | none => exact .inr (.inr rfl)
    | some v => exact .inl ⟨_, rfl⟩
  | fork s a b => exact .inl ⟨_, rfl⟩
  | _ => cases h

namespace Function

variable {f f' : Function} {pos : Nat} {rt : Runtime World} {locals : Nat → Value} {c c' d d' : Config World}

/-- From one state to the next position nothing has happened but to cells. -/
structure Quiet (c d : Config World) : Prop where
  pos : d.pos = c.pos + 1
  result : d.result = c.result
  world : d.world = c.world
  trace : effects d.trace = effects c.trace

theorem quiet_of_fill {writes : List (OperandId × Value)}
    (h : f.perform rt locals c (.fill writes) = .running d) :
  Quiet c d
  := by
  cases h
  exact ⟨rfl, rfl, rfl, rfl⟩

theorem step_of_fill {inst : Inst} {writes : List (OperandId × Value)} (hfetch : f.fetch c.pos = some inst)
    (haction : inst.action f rt (f.read rt c) = .fill writes) :
  f.step rt locals c = .running { c.next with cells := c.cells.fill writes }
  := by
  rw [step_of_fetch (lt_size_of_fetch hfetch) hfetch, haction]
  rfl

/-- Instructions without effects do nothing but to cells. -/
theorem quiet_of_isPure (hrt : rt.Lawful) {inst : Inst} (hfetch : f.fetch c.pos = some inst)
    (hpure : inst.isPure = true) (hstep : f.step rt locals c = .running d) :
  Quiet c d
  := by
  rw [step_of_fetch (lt_size_of_fetch hfetch) hfetch] at hstep
  rcases Inst.action_of_isPure f rt (f.read rt c) hpure with
    ⟨writes, haction⟩ | ⟨request, t, heffect, haction⟩ | haction
  · rw [haction] at hstep
    exact quiet_of_fill hstep
  · rw [haction] at hstep
    simp only [perform] at hstep
    split at hstep
    · rename_i v w hserve
      cases hstep
      refine ⟨rfl, rfl, hrt.world_eq request v _ w heffect hserve, ?_⟩
      change effects (c.trace ++ [request]) = effects c.trace
      rw [effects_append]
      simp [effects, heffect]
    · cases hstep
  · rw [haction] at hstep
    cases hstep

/-- Only a return returns. -/
theorem step_ne_returned {inst : Inst} (hfetch : f.fetch c.pos = some inst) (hinst : ∀ u, inst ≠ .ret u)
    {v : Value} {w : World} {trace : List Request} :
  f.step rt locals c ≠ .ended (.returned v w trace)
  := by
  intro hstep
  rw [step_of_fetch (lt_size_of_fetch hfetch) hfetch] at hstep
  rcases inst.action_cases f rt (f.read rt c) with
    ⟨_, h⟩ | ⟨_, _, h⟩ | h | ⟨_, -, h⟩ | ⟨_, -, h⟩ | ⟨u, hu, -⟩
  · rw [h] at hstep
    cases hstep
  · rw [h] at hstep
    simp only [perform] at hstep
    split at hstep <;> cases hstep
  · rw [h] at hstep
    cases hstep
  · rw [h] at hstep
    simp only [perform] at hstep
    split at hstep <;> cases hstep
  · rw [h] at hstep
    simp only [perform] at hstep
    split at hstep <;> cases hstep
  · exact hinst u hu

/-- A cell that a step does not fill stays. -/
theorem cells_of_not_mem_targets {inst : Inst} (hfetch : f.fetch c.pos = some inst)
    (hstep : f.step rt locals c = .running d) {id : OperandId} (hid : id ∉ inst.targets f) :
  d.cells id = c.cells id
  := by
  rw [(step_running hstep).1]
  apply Cells.fill_of_not_mem
  rwa [map_fst_writes hstep hfetch]

/-- A temp that is not defined any more is of no use. -/
theorem InPlace.not_current (h : f.InPlace f') {t : OperandId} (hlt : t < f.operands.size)
    (htemp : f.isTemp t = true) (hundefined : ∀ q, ¬ f'.DefinesAt q t) (p : Nat) :
  ¬ f'.Current p t
  := by
  rintro (⟨q, hdef, -⟩ | ⟨hvar, -⟩)
  · exact hundefined q hdef
  · rw [h.isVar_eq hlt, isVar_eq_false htemp] at hvar
    cases hvar

/-- An instruction that does nothing but to cells can give way to one that fills those that are
still of use with the same values. -/
theorem InPlace.preservedBy_of_changed (h : f.InPlace f') (wf : f.WellFormed) (wf' : f'.WellFormed)
    (hlocal' : f'.Local) {inst : Inst} (hfetch : f.fetch pos = some inst) (hinst : ∀ u, inst ≠ .ret u)
    (hview : ∀ p, p ≠ pos → f'.fetch p = f.fetch p) {I : (Nat → Value) → Config World → Prop}
    (hstart : ∀ locals scratch world, I locals (f.start locals scratch world))
    (hkeep : ∀ locals c d, I locals c → f.step rt locals c = .running d → I locals d)
    (hchange : ∀ locals c c' d, I locals c → f.Agrees f' c c' → c.pos = pos →
      f.step rt locals c = .running d → Quiet c d ∧
        ∃ writes, f'.step rt locals c' = .running { c'.next with cells := c'.cells.fill writes } ∧
          (∀ id v, (id, v) ∈ writes → d.cells id = v) ∧
          ∀ t, f'.DefinesAt pos t → t ∈ writes.map Prod.fst)
    (huseless : ∀ t ∈ inst.targets f, f'.Current (pos + 1) t → f'.DefinesAt pos t) :
  f.PreservedBy rt f'
  := by
  apply h.preservedBy hstart hkeep
  intro locals c c' hi hc
  by_cases hpos : c.pos = pos
  · subst hpos
    constructor
    · intro d hd
      obtain ⟨⟨hnext, hresult, hworld, htrace⟩, writes, hstep', hwrites, hdefines⟩ :=
        hchange locals c c' d hi hc rfl hd
      refine ⟨_, hstep', ?_, hc.result.trans hresult.symm, hc.world.trans hworld.symm,
        hc.trace.trans htrace.symm, fun id hid hcurrent => ?_⟩
      · rw [hnext, ← hc.pos]
        rfl
      · rw [hnext] at hcurrent
        have hflow : f'.Flows c'.pos (c'.pos + 1) := flows_of_step hstep'
        rw [hc.pos] at hflow
        rcases c'.cells.fill_cases writes id with hmem | ⟨heq, hnot⟩
        · exact (hwrites id _ hmem).symm
        · -- What is not filled was of use before, and neither code has changed it.
          have hundefined : ¬ f'.DefinesAt c.pos id := by
            intro hdef
            obtain ⟨⟨_, v⟩, hv, rfl⟩ := List.mem_map.mp (hdefines id hdef)
            exact hnot v hv
          change c'.cells.fill writes id = d.cells id
          rw [heq, cells_of_not_mem_targets hfetch hd fun ht => hundefined (huseless id ht hcurrent)]
          exact hc.cells id hid ((hcurrent.back wf' hflow).resolve_right hundefined)
    · intro v w trace hd
      exact absurd hd (step_ne_returned hfetch hinst)
  · exact hc.follows_of_fetch_eq h wf wf' hlocal' (hview c.pos hpos)

/-! ### Instructions that go -/

/-- An instruction that does nothing but to cells that are of no use afterwards can go. -/
theorem preservedBy_of_removed (hf : f.Checked) (hf' : (f.remove pos).Checked) {inst : Inst}
    (hfetch : f.fetch pos = some inst) (hlabel : ∀ l, inst ≠ .label l) (hret : ∀ u, inst ≠ .ret u)
    (hquiet : ∀ locals c d, c.pos = pos → f.step rt locals c = .running d → Quiet c d)
    (huseless : ∀ t ∈ inst.targets f, ¬ (f.remove pos).Current (pos + 1) t) :
  f.PreservedBy rt (f.remove pos)
  := by
  have h := inPlace_remove hfetch hlabel
  have hnone : (f.remove pos).fetch pos = none := by rw [fetch_remove, if_pos rfl]
  apply h.preservedBy_of_changed hf.wellFormed hf'.wellFormed hf'.isLocal hfetch hret
    (I := fun _ _ => True)
  · intro p hp
    rw [fetch_remove, if_neg hp]
  · intros
    trivial
  · intros
    trivial
  · intro locals c c' d _ hc hpos hd
    refine ⟨hquiet locals c d hpos hd, [], ?_, fun _ _ => nofun, ?_⟩
    · apply step_of_fetch_none
      · rw [hc.pos, hpos, size_remove]
        exact lt_size_of_fetch hfetch
      · rw [hc.pos, hpos, hnone]
    · rintro t ⟨i, hi, -⟩
      rw [hnone] at hi
      cases hi
  · exact fun t ht hcurrent => absurd hcurrent (huseless t ht)

/-- Removing an instruction without effects preserves what a function does, if nothing reads what it
defines. -/
theorem preservedBy_erased (hrt : rt.Lawful) (hf : f.Checked) {pos : Nat} {inst : Inst}
    (hfetch : f.fetch pos = some inst) (hpure : inst.isPure = true)
    (hunread : ∀ t ∈ inst.defs, f.Unread t) :
  f.PreservedBy rt (f.remove pos)
  := by
  have hlabel : ∀ l, inst ≠ .label l := by
    rintro l rfl
    cases hpure
  have hret : ∀ u, inst ≠ .ret u := by
    rintro u rfl
    cases hpure
  have h := inPlace_remove hfetch hlabel
  apply preservedBy_of_removed hf (Edit.checked (.erase hfetch hpure hunread) hf) hfetch hlabel hret
  · rintro locals c d rfl hstep
    exact quiet_of_isPure hrt hfetch hpure hstep
  · intro t ht
    have hdef : t ∈ inst.defs := by
      cases inst <;> first | exact ht | cases hpure
    obtain ⟨hlt, htemp⟩ := hf.wellFormed.isTemp_of_defines ⟨inst, hfetch, hdef⟩
    apply h.not_current hlt htemp
    rintro q ⟨i, hi, hti⟩
    obtain ⟨hi', hne⟩ := fetch_of_fetch_remove hi
    exact hne (hf.wellFormed.single q pos t ⟨i, hi', hti⟩ ⟨inst, hfetch, hdef⟩)

/-- An assertion that is met can go. -/
theorem preservedBy_assertion_removed (hf : f.Checked) (hf' : (f.remove pos).Checked) {kind : AssertKind}
    {t : OperandId} (hfetch : f.fetch pos = some (.assertion kind t)) :
  f.PreservedBy rt (f.remove pos)
  := by
  apply preservedBy_of_removed hf hf' hfetch (fun _ => nofun) (fun _ => nofun)
  · rintro locals c d rfl hstep
    rw [step_of_fetch (lt_size_of_fetch hfetch) hfetch] at hstep
    simp only [Inst.action] at hstep
    split at hstep
    · exact quiet_of_fill hstep
    · cases hstep
  · intro t ht
    cases ht

/-- A store to a variable that is not read again can go.  A path from the store back to a read
would stay in a loop that goes on after the store. -/
theorem preservedBy_store_removed (hf : f.Checked) (hf' : (f.remove pos).Checked)
    (hnest' : (f.remove pos).LoopsNest) {x s : OperandId} (hfetch : f.fetch pos = some (.store x s))
    (hx : f.isVar x = true) (hunread : f.UnreadAfter x pos) :
  f.PreservedBy rt (f.remove pos)
  := by
  apply preservedBy_of_removed hf hf' hfetch (fun _ => nofun) (fun _ => nofun)
  · rintro locals c d rfl hstep
    obtain ⟨n, hn⟩ := isVar_iff.mp hx
    rw [step_of_fetch (lt_size_of_fetch hfetch) hfetch] at hstep
    simp only [Inst.action, hn] at hstep
    exact quiet_of_fill hstep
  · intro t ht
    cases Inst.eq_of_mem_targets_store ht
    rintro (⟨q, hdef, -⟩ | ⟨-, r, hload, hpath⟩)
    · have htemp : f.isTemp x = true := (hf'.wellFormed.isTemp_of_defines hdef).2
      rw [isVar_eq_false htemp] at hx
      cases hx
    · obtain ⟨e, he⟩ := hload
      have hload : f.LoadsAt r x := ⟨e, (fetch_of_fetch_remove he).1⟩
      have hle := hunread.load_le r hload
      rcases hpath.cases_head with rfl | ⟨q, hflow, hrest⟩
      · omega
      · obtain ⟨t, j, ⟨hlt, i, l, hi, hl, hlabel⟩, htr, hpj⟩ :=
          exists_isLoop_of_path hf'.wellFormed hnest' (.head' hflow hrest) (Nat.le_succ_of_le hle)
        have hloop : f.IsLoop t j := ⟨hlt, i, l, (fetch_of_fetch_remove hi).1, hl, hlabel⟩
        have := hunread.loop_le t j r hloop htr (by omega) hload
        omega

/-! ### Forks -/

/-- A fork of which nothing reads one side can be an assignment. -/
theorem preservedBy_narrowed (hf : f.Checked) {src kept dropped : OperandId}
    (hfetch : f.fetch pos = some (.fork src kept dropped) ∨
      f.fetch pos = some (.fork src dropped kept))
    (hunread : f.Unread dropped) :
  f.PreservedBy rt (f.replace pos (.assign kept src))
  := by
  have hf' := Edit.checked (.narrow hfetch hunread) hf
  obtain ⟨a, b, hold, hkept, h⟩ := exists_fork hfetch
  have hsrc : src ∈ (Inst.fork src a b).uses := List.mem_singleton.mpr rfl
  have htemp := hf.wellFormed.isTemp_of_uses hold hsrc fun _ => nofun
  have hlt := (hf.wellFormed.fits _ _ hold).use_lt src hsrc
  have hview : ∀ p, (f.replace pos (.assign kept src)).fetch p = _ := fetch_replace hold _
  have hnew : (f.replace pos (.assign kept src)).fetch pos = some (.assign kept src) := by
    rw [hview, if_pos rfl]
  have hremote : (f.kind src).isRemote = false := by
    obtain ⟨n, hn⟩ := isTemp_iff.mp htemp
    rw [hn]
    rfl
  apply h.preservedBy_of_changed hf.wellFormed hf'.wellFormed hf'.isLocal hold (fun _ => nofun)
    (I := fun _ _ => True)
  · intro p hp
    rw [hview, if_neg hp]
  · intros
    trivial
  · intros
    trivial
  · rintro locals c c' d _ hc rfl hd
    rw [step_of_fetch (lt_size_of_fetch hold) hold] at hd
    refine ⟨quiet_of_fill hd, [(kept, f.read rt c src)], ?_, ?_, ?_⟩
    · have hread : _ = f.read rt c src :=
        hc.read_eq h hf'.wellFormed hf'.isLocal hnew (List.mem_singleton.mpr rfl) hlt hremote
      rw [← hread]
      apply step_of_fill
      · rw [hc.pos, hnew]
      · apply Inst.action_assign_of_not_remote hremote
    · intro id v hmem
      cases List.mem_singleton.mp hmem
      cases hd
      rcases hkept with rfl | rfl <;> simp [Cells.put]
    · rintro t ⟨i, hi, ht⟩
      rw [hnew] at hi
      cases hi
      exact ht
  · intro t ht hcurrent
    by_cases hne : t = kept
    · exact ⟨_, hnew, List.mem_singleton.mpr hne⟩
    · -- The other side is not defined any more.
      have hdef : f.DefinesAt pos t := ⟨_, hold, ht⟩
      obtain ⟨hlt, htemp⟩ := hf.wellFormed.isTemp_of_defines hdef
      refine absurd hcurrent (h.not_current hlt htemp ?_ _)
      rintro q ⟨i, hi, hti⟩
      rw [hview] at hi
      split at hi
      · cases hi
        exact hne (List.mem_singleton.mp hti)
      · rename_i hq
        exact hq (hf.wellFormed.single q pos t ⟨i, hi, hti⟩ hdef)

/-! ### Copies -/

/-- In the stretch of code that a copy opens, the copy equals its source. -/
def Copied (f : Function) (pos : Nat) (t s : OperandId) (c : Config World) : Prop :=
  pos < c.pos → f.Straight pos c.pos → c.cells t = c.cells s

/-- Neither the copy nor its source is defined again, so a step keeps them equal. -/
theorem Copied.step (wf : f.WellFormed) {t s : OperandId} (hfetch : f.fetch pos = some (.assign t s))
    (hs : f.isTemp s = true) (hc : f.Copied pos t s c) (hstep : f.step rt locals c = .running d) :
  f.Copied pos t s d
  := by
  intro hlt hstraight
  have hread : f.ReadsAt pos s := ⟨_, hfetch, List.mem_singleton.mpr rfl⟩
  have hdef : f.DefinesAt pos t := ⟨_, hfetch, List.mem_singleton.mpr rfl⟩
  obtain ⟨q, hq, hdefs⟩ := wf.defined pos s hread hs
  have htemp := (wf.isTemp_of_defines hdef).2
  have hnext : d.pos = c.pos + 1 := by
    rcases (step_running hstep).2 with hnext | ⟨_, l, -, -, hl, -⟩
    · exact hnext
    · exact absurd ((wf.labels l _).mp hl) (hstraight d.pos l hlt (Nat.le_refl _))
  rcases Nat.lt_or_eq_of_le (Nat.le_of_lt_succ (hnext ▸ hlt)) with hpos | rfl
  · have hkeep : ∀ u r, f.DefinesAt r u → f.isTemp u = true → r ≠ c.pos → d.cells u = c.cells u := by
      intro u r hu hut hr
      cases hi : f.fetch c.pos with
      | none =>
        rw [(step_running hstep).1]
        simp [writes, hi]
      | some inst =>
        apply cells_of_not_mem_targets hi hstep
        intro hmem
        exact hr (wf.single r c.pos u hu ⟨inst, hi, Inst.mem_defs_of_targets (wf.fits _ _ hi) hmem hut⟩)
    rw [hkeep t pos hdef htemp (Nat.ne_of_lt hpos), hkeep s q hdefs hs (by omega)]
    exact hc hpos (hstraight.mono (Nat.le_refl _) (by omega))
  · obtain ⟨n, hn⟩ := isTemp_iff.mp hs
    have haction : (Inst.assign t s).action f rt (f.read rt c) = .fill [(t, f.read rt c s)] := by
      apply Inst.action_assign_of_not_remote
      rw [hn]
      rfl
    rw [step_of_fill hfetch haction] at hstep
    cases hstep
    have hne : s ≠ t := by
      rintro rfl
      have := wf.single q c.pos s hdefs hdef
      omega
    change c.cells.fill _ t = c.cells.fill _ s
    rw [read_temp hs]
    simp [hne]

/-- Reading the temp `s` wherever its copy `t` is read preserves what a function does. -/
theorem preservedBy_renamed (hf : f.Checked) {t s : OperandId} (hfetch : f.fetch pos = some (.assign t s))
    (hs : f.isTemp s = true) :
  f.PreservedBy rt (f.renamed t s)
  := by
  have wf := hf.wellFormed
  have hf' := Edit.checked (.rename hfetch hs) hf
  have h := f.inPlace_renamed t s
  have hdef : f.DefinesAt pos t := ⟨_, hfetch, List.mem_singleton.mpr rfl⟩
  have htemp := (wf.isTemp_of_defines hdef).2
  have hslt := (wf.fits _ _ hfetch).use_lt s (List.mem_singleton.mpr rfl)
  have hkind : ∀ id, (f.renamed t s).kind id = f.kind id := fun _ => rfl
  have hnear : ∀ {u}, f.isTemp u = true → (f.kind u).isRemote = false := by
    intro u hu
    obtain ⟨n, hn⟩ := isTemp_iff.mp hu
    rw [hn]
    rfl
  apply h.preservedBy (I := fun _ c => f.Copied pos t s c)
  · exact fun _ _ _ hlt => absurd hlt (Nat.not_lt_zero _)
  · exact fun locals c d hc hstep => hc.step wf hfetch hs hstep
  · intro locals c c' hcopied hc
    cases hi : f.fetch c.pos with
    | none =>
      apply hc.follows_of_fetch_eq h wf hf'.wellFormed hf'.isLocal
      rw [fetch_renamed, hi]
      rfl
    | some inst =>
      have hi' : (f.renamed t s).fetch c.pos = some (inst.mapUses (substitute t s)) := by
        rw [fetch_renamed, hi]
        rfl
      apply hc.follows_of_action h wf hf'.wellFormed hi hi'
      have hfits := wf.fits _ _ hi
      apply Inst.action_mapUses
      · intro id hid hremote
        have hid' : substitute t s id ∈ (inst.mapUses (substitute t s)).uses := by
          rw [Inst.uses_mapUses]
          exact List.mem_map_of_mem hid
        by_cases ht : id = t
        · subst ht
          have hsub : substitute id s id = s := if_pos rfl
          rw [hsub] at hid' ⊢
          have hread : f.ReadsAt c.pos id := ⟨inst, hi, hid⟩
          rw [hc.read_eq h hf'.wellFormed hf'.isLocal hi' hid' hslt (hnear hs), read_temp hs,
            read_temp htemp]
          exact (hcopied (wf.lt_of_reads hdef hread htemp) (hf.isLocal pos c.pos id hdef hread)).symm
        · have hsub : substitute t s id = id := if_neg ht
          rw [hsub] at hid' ⊢
          apply hc.read_eq h hf'.wellFormed hf'.isLocal hi' hid' (hfits.use_lt id hid)
          rcases hfits.use_temp id hid with hu | ⟨d, hd⟩
          · exact hnear hu
          · exact hremote d hd
      · rintro d u rfl
        by_cases ht : u = t
        · subst ht
          have hsub : substitute u s u = s := if_pos rfl
          rw [hsub]
          exact .inr ⟨hnear htemp, hnear hs⟩
        · have hsub : substitute t s u = u := if_neg ht
          rw [hsub]
          exact .inl rfl
      · exact fun _ _ _ => rfl

end Function

end StackCompiler.IR
