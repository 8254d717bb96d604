import StackCompiler.Proofs.Passes.Entry

/-!
# Calls of passes

A call of a pass runs it, sweeps and drops the removed positions.  Whatever passes are called
after the entry loads of lowered code, and whether or not they stop with an error, the code
that they leave comes about by changes that keep it `Checked`.
-/

namespace StackCompiler.IR

variable {s : State}

/-- Every sequence of changes leaves hints true and operations guarded. -/
theorem Edits.checked {f f' : Function} (h : Edits f f') (hf : f.Checked) :
  f'.Checked
  := by
  induction h with
  | refl => exact hf
  | tail _ hedit ih => exact hedit.checked ih

/-- A pass whose result is reached by changes is so with the sweep after it. -/
theorem Pass.reaches_run {pass : Pass} (h : s.Reaches (pass s).state) :
  s.Reaches (pass.run s).state
  := by
  unfold Pass.run
  cases hpass : pass s with
  | error stopped =>
    rw [hpass] at h
    exact h
  | ok s₁ =>
    rw [hpass] at h
    obtain ⟨hsweep, hsettled⟩ := State.settled_sweep h.settled.obsolete
    exact ⟨h.edits.trans hsweep, hsettled⟩

/-- A pass of a round. -/
theorem PassName.reaches_pass {p : PassName} (hp : p ∈ PassName.round) (h : s.Settled) :
  s.Reaches (Attempt.state (p.pass s))
  := by
  cases p with
  | propagateTypes => exact State.reaches_propagateTypes h
  | foldConstants => exact State.reaches_foldConstants h
  | specializeTypes => exact State.reaches_specializeTypes h
  | forwardStores => exact State.reaches_forwardFrom _ _ s h
  | deadStores => exact State.reaches_removeStores _ s h
  | deadTemps => exact State.reaches_removeTemps _ s h
  | loadVars | shortJumps | sweep => exact absurd hp (by decide)

/-- A call of a pass of a round, or of a sweep. -/
theorem PassName.reaches_run {p : PassName} (hload : p ≠ .loadVars) (hshort : p ≠ .shortJumps)
    (h : s.Settled) :
  s.Reaches (p.run s).state
  := by
  by_cases hsweep : p = .sweep
  · subst hsweep
    -- This pass is a sweep itself, and leaves removed positions to the sweep that follows.
    obtain ⟨hedits, hswept⟩ := State.edits_sweep h.obsolete
    obtain ⟨hedits', hsettled⟩ := State.settled_sweep (s := s.sweep) (hswept _)
    exact ⟨hedits.trans hedits', hsettled⟩
  · have hround : p ∈ PassName.round := by
      cases p <;> first | decide | contradiction
    exact Pass.reaches_run (reaches_pass hround h)

namespace State

/-- The state after calls of named passes.  A call that stops with an error leaves the state
that it came to. -/
def callAll (s : State) (passes : List PassName) : State :=
  passes.foldl (fun s p => (p.run s).state) s

/-- Calls of passes of a round are a sequence of changes and leave right marks. -/
theorem reaches_callAll {passes : List PassName} (hpasses : ∀ p ∈ passes, p ∈ PassName.round)
    (h : s.Settled) :
  s.Reaches (s.callAll passes)
  := by
  unfold callAll
  induction passes generalizing s with
  | nil => exact .refl h
  | cons p passes ih =>
    have hp : s.Reaches (p.run s).state := by
      apply PassName.reaches_run ?_ ?_ h
      · rintro rfl
        exact absurd (hpasses _ List.mem_cons_self) (by decide)
      · rintro rfl
        exact absurd (hpasses _ List.mem_cons_self) (by decide)
    exact hp.trans (ih (fun q hq => hpasses q (List.mem_cons_of_mem _ hq)) hp.settled)

/-- The call that loads variables at the top of lowered code. -/
theorem reaches_loadVars {f : Bytecode.Function} {g : Function} (h : lower f = .ok g)
    (he : f.EmptyAtJumps) {ctx : Context} (hctx : ctx.obsolete = []) :
  (g.withLoads g.entryLoads).Checked ∧
    ∃ s', PassName.loadVars.run ⟨g, ctx⟩ = .ok s' ∧
      State.Reaches ⟨g.withLoads g.entryLoads, ctx⟩ s'
  := by
  obtain ⟨hload, hchecked, hsettled⟩ := loadVars_lower h he hctx
  refine ⟨hchecked, State.compact (State.sweep ⟨g.withLoads g.entryLoads, ctx⟩), ?_, ?_⟩
  · change (IR.loadVars ⟨g, ctx⟩ >>= fun s => pure s.sweep.compact) = _
    rw [hload]
    rfl
  · obtain ⟨hsweep, hsettled'⟩ := settled_sweep hsettled.obsolete
    exact ⟨hsweep, hsettled'⟩

end State

end StackCompiler.IR
