import StackCompiler.Proofs.Passes.Nesting

/-!
# What the optimizer keeps

A property that every change of a round keeps, and that does not tell the two forms of a jump
apart, holds of the code that the optimizer leaves if it holds of lowered code with its entry
loads.
-/

namespace StackCompiler.IR

namespace Function

variable {f : Function} {pos : Nat} {l : Label}

/-! ### The two forms of a jump -/

section Shortened

variable (hfetch : f.fetch pos = some (.jump l))
include hfetch

theorem inPlace_shortened :
  f.InPlace (f.replace pos (.shortJump l))
  := inPlace_replace hfetch (fun _ => nofun) fun _ => nofun

/-- After a jump is shortened the instructions are those that were there, and the short jump. -/
theorem fetch_shortened_cases {p : Nat} {i : Inst} (hi : (f.replace pos (.shortJump l)).fetch p = some i) :
  f.fetch p = some i ∨ p = pos ∧ i = .shortJump l
  := by
  rw [fetch_replace hfetch] at hi
  split at hi
  · exact .inr ⟨‹_›, (Option.some.inj hi).symm⟩
  · exact .inl hi

/-- What is no jump stays where it is. -/
theorem fetch_shortened_of_ne {p : Nat} {i : Inst} (hi : f.fetch p = some i) (hne : i ≠ .jump l) :
  (f.replace pos (.shortJump l)).fetch p = some i
  := fetch_kept (fetch_replace hfetch _) hfetch hi hne

/-- Shortening a jump does not change where operands are defined. -/
theorem defines_shortened_iff {p : Nat} {t : OperandId} :
  (f.replace pos (.shortJump l)).DefinesAt p t ↔ f.DefinesAt p t
  := by
  constructor
  · rintro ⟨i, hi, ht⟩
    rcases fetch_shortened_cases hfetch hi with hi | ⟨-, rfl⟩
    · exact ⟨i, hi, ht⟩
    · cases ht
  · rintro ⟨i, hi, ht⟩
    refine ⟨i, fetch_shortened_of_ne hfetch hi ?_, ht⟩
    rintro rfl
    cases ht

/-- Shortening a jump does not change where operands are read. -/
theorem reads_shortened {p : Nat} {t : OperandId} (h : (f.replace pos (.shortJump l)).ReadsAt p t) :
  f.ReadsAt p t
  := by
  obtain ⟨i, hi, ht⟩ := h
  rcases fetch_shortened_cases hfetch hi with hi | ⟨-, rfl⟩
  · exact ⟨i, hi, ht⟩
  · cases ht

/-- Code stays well formed when a jump is shortened. -/
theorem wellFormed_shortened (wf : f.WellFormed) :
  (f.replace pos (.shortJump l)).WellFormed
  := by
  have h := inPlace_shortened hfetch
  apply h.wellFormed wf
  · intro p i hi
    apply h.fits
    rcases fetch_shortened_cases hfetch hi with hi | ⟨-, rfl⟩
    · exact wf.fits p i hi
    · exact ⟨fun _ => nofun, fun _ => nofun, fun _ => nofun, fun _ => nofun, fun _ _ => nofun⟩
  · exact fun p t => (defines_shortened_iff hfetch).mp
  · intro p t hread htemp
    obtain ⟨q, hq, hdef⟩ := wf.defined p t (reads_shortened hfetch hread) htemp
    exact ⟨q, hq, (defines_shortened_iff hfetch).mpr hdef⟩

/-- Code stays opened when a jump is shortened. -/
theorem Opened.shortened (ho : f.Opened) :
  (f.replace pos (.shortJump l)).Opened
  := by
  apply ho.of_fetch (inPlace_shortened hfetch)
  · rintro p x ⟨d, hd⟩ _
    rcases fetch_shortened_cases hfetch hd with hd | ⟨-, hd⟩
    · exact ⟨d, hd⟩
    · cases hd
  · intro p i hi
    rcases fetch_shortened_cases hfetch hi with hi | ⟨rfl, rfl⟩
    · exact .inr ⟨i, hi, id⟩
    · exact .inr ⟨.jump l, hfetch, id⟩
  · exact fun p x hi => fetch_shortened_of_ne hfetch hi nofun
  · exact fun p q x s _ _ hi => ⟨s, fetch_shortened_of_ne hfetch hi nofun⟩

/-- Code stays checked when a jump takes the short form. -/
theorem Checked.shortened (hf : f.Checked) :
  (f.replace pos (.shortJump l)).Checked
  := by
  have wf := hf.wellFormed
  have h := inPlace_shortened hfetch
  have hcases : ∀ p i, (f.replace pos (.shortJump l)).fetch p = some i → _ :=
    fun p i => fetch_shortened_cases hfetch
  -- A jump gives nothing to any operand, in either form.
  have hmay : ∀ id v, (f.replace pos (.shortJump l)).May id v → f.May id v := by
    intro id v
    apply h.may_of_fetch wf
    intro p i hi
    rcases hcases p i hi with hi | ⟨-, rfl⟩
    · exact .inl hi
    · exact .inr fun _ _ => nofun
  refine ⟨wellFormed_shortened hfetch wf, ?_, ?_, ?_, ?_⟩
  · intro q p t hdef hread
    rw [h.straight_iff]
    exact hf.isLocal q p t ((defines_shortened_iff hfetch).mp hdef) (reads_shortened hfetch hread)
  · have hoperands : (f.replace pos (.shortJump l)).operands = f.operands := rfl
    apply hf.hinted.of_operands wf hoperands fun id v _ => hmay id v
    intro p i t c hi ht _
    rcases hcases p i hi with hi | ⟨-, rfl⟩
    · exact .inl ⟨p, i, hi, ht, rfl⟩
    · cases ht
  · apply hf.guarded.of_fetch wf fun id v _ => hmay id v
    · intro p i hi
      rcases hcases p i hi with hi | ⟨-, rfl⟩
      · exact .inl hi
      · exact .inr ⟨fun _ _ _ _ => nofun, fun _ _ _ => nofun⟩
    · exact fun p kind t hi => fetch_shortened_of_ne hfetch hi nofun
  · exact hf.opened.shortened hfetch

end Shortened

end Function

open IR.Function

/-- A property that the changes of the optimizer keep. -/
structure Kept (P : Function → Prop) : Prop where
  edit : ∀ f f', P f → Edit f f' → P f'
  shorten : ∀ f pos l, P f → f.fetch pos = some (.jump l) → P (f.replace pos (.shortJump l))

namespace Kept

variable {P : Function → Prop} {s s' : State}

/-- What every change keeps a sequence of changes keeps. -/
theorem edits (hP : Kept P) {f f' : Function} (h : P f) (hedits : Edits f f') :
  P f'
  := by
  induction hedits with
  | refl => exact h
  | tail _ hedit ih => exact hP.edit _ _ ih hedit

/-- The pass that shortens jumps. -/
theorem shortJumps (hP : Kept P) (hs : s.Settled) (h : P s.func) (hpass : IR.shortJumps s = .ok s') :
  s'.Settled ∧ P s'.func
  := by
  have hvisit : ∀ (s' : State) pos inst, s'.Settled ∧ P s'.func → s'.func.fetch pos = some inst →
      ((Attempt.state (s'.shortenAt (pos, inst))).Settled ∧
        P (Attempt.state (s'.shortenAt (pos, inst))).func) ∧
      ∀ p, p ≠ pos → (Attempt.state (s'.shortenAt (pos, inst))).func.fetch p = s'.func.fetch p := by
    rintro s' pos inst ⟨hs, h⟩ hfetch
    rcases s'.shortenAt_cases pos inst with hsame | ⟨l, target, stats, rfl, -, -, hshort⟩
    · rw [hsame]
      exact ⟨⟨hs, h⟩, fun _ _ => rfl⟩
    · rw [hshort]
      obtain ⟨hobsolete, hpending⟩ := State.settled_shortened hs hfetch
      refine ⟨⟨⟨hobsolete, hpending⟩, hP.shorten _ pos l h hfetch⟩, ?_⟩
      exact fun p hp => (fetch_replace hfetch _ p).trans (if_neg hp)
  have hstate := State.holds_foldlM_live State.shortenAt hvisit ⟨hs, h⟩
  change (Attempt.state (IR.shortJumps s)).Settled ∧ P (Attempt.state (IR.shortJumps s)).func at hstate
  rw [hpass] at hstate
  exact hstate

/-- The pass that shortens jumps, with the sweep after it. -/
theorem run_shortJumps (hP : Kept P) (hs : s.Settled) (h : P s.func)
    (hrun : PassName.shortJumps.run s = .ok s') :
  s'.Settled ∧ P s'.func
  := by
  obtain ⟨s₁, hshort, hsweep⟩ := Attempt.bind_eq_ok hrun
  cases hsweep
  obtain ⟨hs₁, h₁⟩ := hP.shortJumps hs h hshort
  obtain ⟨hsweep, hsettled⟩ := State.settled_sweep hs₁.obsolete
  exact ⟨hsettled, hP.edits h₁ hsweep⟩

/-- Every named pass but the one that inserts loads. -/
theorem run (hP : Kept P) {p : PassName} (hp : p ≠ .loadVars) (hs : s.Settled) (h : P s.func)
    (hrun : p.run s = .ok s') :
  s'.Settled ∧ P s'.func
  := by
  by_cases hshort : p = .shortJumps
  · rw [hshort] at hrun
    exact hP.run_shortJumps hs h hrun
  · have hreach := PassName.reaches_run hp hshort hs
    rw [hrun] at hreach
    exact ⟨hreach.settled, hP.edits h hreach.edits⟩

/-- What the changes of the optimizer keep calls of its passes keep, apart from the one that puts
in entry loads. -/
theorem runAll (hP : Kept P) {passes : List PassName} (hpasses : ∀ p ∈ passes, p ≠ .loadVars)
    (hs : s.Settled) (h : P s.func) (hrun : s.runAll passes = .ok s') :
  s'.Settled ∧ P s'.func
  := by
  induction passes generalizing s with
  | nil =>
    cases hrun
    exact ⟨hs, h⟩
  | cons p passes ih =>
    obtain ⟨s₁, hp, hrest⟩ := State.runAll_cons_eq_ok hrun
    obtain ⟨hs₁, h₁⟩ := hP.run (hpasses p List.mem_cons_self) hs h hp
    exact ih (fun q hq => hpasses q (List.mem_cons_of_mem _ hq)) hs₁ h₁ hrest

/-- What the changes of the optimizer keep its rounds keep. -/
theorem runRounds (hP : Kept P) (n : Nat) (hs : s.Settled) (h : P s.func)
    (hrun : State.runRounds n s = .ok s') :
  s'.Settled ∧ P s'.func
  := by
  induction n generalizing s with
  | zero =>
    cases hrun
    exact ⟨hs, h⟩
  | succ n ih =>
    obtain ⟨s₁, hround, hrest⟩ := Attempt.bind_eq_ok hrun
    obtain ⟨hs₁, h₁⟩ := hP.runAll (by decide) hs h hround
    exact ih hs₁ h₁ hrest

/-- What holds of lowered code with its entry loads holds of the code that the passes leave. -/
theorem runPasses (hP : Kept P) {f : Bytecode.Function} {g : Function} (hlower : lower f = .ok g)
    (hempty : f.EmptyAtJumps) (h : P (g.withLoads g.entryLoads)) {ctx : Context} (hctx : ctx.obsolete = [])
    (hrun : State.runPasses ⟨g, ctx⟩ = .ok s') :
  P s'.func
  := by
  obtain ⟨-, s, hload, hreach⟩ := State.reaches_loadVars hlower hempty hctx
  obtain ⟨s₀, hload', hrest⟩ := Attempt.bind_eq_ok hrun
  cases hload.symm.trans hload'
  have hs := hP.edits h hreach.edits
  split at hrest
  · obtain ⟨s₁, hrounds, hshort⟩ := Attempt.bind_eq_ok hrest
    obtain ⟨hs₁, h₁⟩ := hP.runRounds _ hreach.settled hs hrounds
    exact (hP.run_shortJumps hs₁ h₁ hshort).2
  · cases hrest
    exact hs

/-- The optimizer leaves such code, with its live intervals. -/
theorem optimize (hP : Kept P) {f : Bytecode.Function} {g : Function} (hlower : lower f = .ok g)
    (hempty : f.EmptyAtJumps) (h : P (g.withLoads g.entryLoads)) {o : Options} {t : State}
    (hopt : IR.optimize g o = .ok t) :
  ∃ f' : Function, P f' ∧ f'.intervals = .ok t.func
  := by
  obtain ⟨s, hrun, hrest⟩ := Attempt.bind_eq_ok hopt
  refine ⟨s.func, hP.runPasses hlower hempty h rfl hrun, ?_⟩
  obtain ⟨s', hanalyze, hcount⟩ := Attempt.bind_eq_ok hrest
  cases hcount
  unfold State.analyze at hanalyze
  cases hintervals : s.func.intervals with
  | error stopped =>
    rw [hintervals] at hanalyze
    cases hanalyze
  | ok f' =>
    rw [hintervals] at hanalyze
    cases hanalyze
    rfl

end Kept

end StackCompiler.IR
