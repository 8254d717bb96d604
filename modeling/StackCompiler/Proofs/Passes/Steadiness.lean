import StackCompiler.Proofs.Passes.Scans

/-!
# Passes do not depend on reports

The options say whether an operation that is bound to fail is reported.  A `Steady` pass keeps
the options, and what it gives when there is nothing to report it gives with reports turned
off as well.  Every pass is steady, as it is put together from steady pieces.
-/

namespace StackCompiler

/-- The options with reports turned off. -/
def Options.quiet (o : Options) : Options := { o with reportErrors := false }

namespace IR

open Bytecode (Constant)

/-- The state with reports turned off. -/
def State.quiet (s : State) : State := { s with ctx.options := s.ctx.options.quiet }

/-! ### Passes that do not depend on reports -/

/-- A change that does not depend on the options. -/
structure State.Plain (change : State → State) : Prop where
  options : ∀ s, (change s).ctx.options = s.ctx.options
  quiet : ∀ s, change s.quiet = (change s).quiet

/-- A pass that keeps the options, and that gives the same result without reports. -/
structure Pass.Steady (pass : Pass) : Prop where
  options : ∀ {s t}, pass s = .ok t → t.ctx.options = s.ctx.options
  quiet : ∀ {s t}, pass s = .ok t → pass s.quiet = .ok t.quiet

namespace State.Plain

variable {α : Type} {change change' : State → State}

/-- Two changes that do not depend on the options, one after the other, do not depend on them. -/
theorem comp (h : Plain change) (h' : Plain change') :
  Plain fun s => change' (change s)
  := by
  refine ⟨fun s => (h'.options _).trans (h.options s), fun s => ?_⟩
  rw [h.quiet, h'.quiet]

/-- Visits that do not depend on the options do not depend on them together. -/
theorem foldl {visit : State → α → State} (h : ∀ x, Plain (visit · x)) (xs : List α) :
  Plain fun s => xs.foldl visit s
  := by
  induction xs with
  | nil => exact ⟨fun _ => rfl, fun _ => rfl⟩
  | cons x xs ih => exact (h x).comp ih

/-- A change that goes through a list which the function gives. -/
theorem foldl_func {visit : State → α → State} (h : ∀ x, Plain (visit · x))
    (entries : Function → List α) :
  Plain fun s => (entries s.func).foldl visit s
  := ⟨fun s => (foldl h (entries s.func)).options s, fun s => (foldl h (entries s.func)).quiet s⟩

/-- A change that does not depend on the options is a steady pass. -/
theorem steady (h : Plain change) :
  Pass.Steady fun s => .ok (change s)
  := by
  constructor
  · rintro s t ⟨⟩
    exact h.options s
  · rintro s t ⟨⟩
    rw [h.quiet]

end State.Plain

namespace Pass.Steady

variable {α : Type} {pass pass' : Pass}

/-- Two steady passes, one after the other, are a steady pass. -/
theorem bind (h : Steady pass) (h' : Steady pass') :
  Steady fun s => pass s >>= pass'
  := by
  have hsplit : ∀ {s t}, (pass s >>= pass') = .ok t → ∃ s₁, pass s = .ok s₁ ∧ pass' s₁ = .ok t := by
    intro s t hrun
    cases hs : pass s with
    | error stopped =>
      rw [hs] at hrun
      cases hrun
    | ok s₁ =>
      rw [hs] at hrun
      exact ⟨s₁, rfl, hrun⟩
  constructor
  · intro s t hrun
    obtain ⟨s₁, hs, ht⟩ := hsplit hrun
    exact (h'.options ht).trans (h.options hs)
  · intro s t hrun
    obtain ⟨s₁, hs, ht⟩ := hsplit hrun
    rw [h.quiet hs]
    exact h'.quiet ht

/-- Steady visits of a list are a steady pass together. -/
theorem foldlM {visit : State → α → Attempt State State} (h : ∀ x, Steady (visit · x)) (xs : List α) :
  Steady fun s => xs.foldlM visit s
  := by
  induction xs with
  | nil =>
    constructor
    · rintro s t ⟨⟩
      rfl
    · rintro s t ⟨⟩
      rfl
  | cons x xs ih =>
    have hcons := (h x).bind ih
    exact ⟨fun {s t} => hcons.options (s := s) (t := t), fun {s t} => hcons.quiet (s := s) (t := t)⟩

/-- Steady visits of entries that are read off the function are a steady pass together. -/
theorem foldlM_func {visit : State → α → Attempt State State} (h : ∀ x, Steady (visit · x))
    (entries : Function → List α) :
  Steady fun s => (entries s.func).foldlM visit s
  := ⟨fun {s _} hs => (foldlM h (entries s.func)).options hs,
    fun {s _} hs => (foldlM h (entries s.func)).quiet hs⟩

/-- An analysis of the function is a steady pass, since it does not see the options. -/
theorem analyze (analysis : Function → Attempt Function Function) :
  Steady fun s => s.analyze analysis
  := by
  constructor
  · intro s t ht
    rw [(State.analyze_eq_ok ht).2]
  · intro s t ht
    obtain ⟨hfunc, hctx⟩ := State.analyze_eq_ok ht
    unfold State.analyze
    rw [show s.quiet.func = s.func from rfl, hfunc]
    unfold State.quiet
    rw [hctx]
    rfl

end Pass.Steady

namespace State

theorem plain_mark (id : OperandId) :
  Plain (·.mark id)
  := ⟨fun _ => rfl, fun _ => rfl⟩

theorem plain_markAll (ids : List OperandId) :
  Plain (·.markAll ids)
  := Plain.foldl plain_mark ids

theorem plain_count (change : Stats → Stats) :
  Plain (·.count change)
  := ⟨fun _ => rfl, fun _ => rfl⟩

theorem plain_remove (pos : Nat) :
  Plain (·.remove pos)
  := ⟨fun _ => rfl, fun _ => rfl⟩

/-- The sweep at one position does not depend on the options. -/
theorem plain_sweepAt (entry : Nat × Inst) :
  Plain (·.sweepAt entry)
  := by
  obtain ⟨pos, inst⟩ := entry
  have hmarks : ∀ (s : State) id, s.quiet.isObsolete id = s.isObsolete id := fun _ _ => rfl
  have hfunc : ∀ s : State, s.quiet.func = s.func := fun _ => rfl
  constructor
  · intro s
    cases inst <;> simp only [sweepAt] <;> split <;> rfl
  · intro s
    cases inst <;> simp only [sweepAt, hmarks, hfunc] <;> split <;> rfl

theorem plain_sweep :
  Plain sweep
  := by
  have hsweep := Plain.foldl_func plain_sweepAt fun f => f.live.reverse
  have hclear : Plain fun s => { s with ctx.obsolete := [] } := ⟨fun _ => rfl, fun _ => rfl⟩
  exact hsweep.comp hclear

theorem plain_compact :
  Plain compact
  := ⟨fun _ => rfl, fun _ => rfl⟩

/-- Putting a load at the top is steady. -/
theorem steady_loadAtEntry (x : OperandId) :
  Pass.Steady (·.loadAtEntry x)
  := by
  have heq : ∀ s t, loadAtEntry s x = .ok t → ∃ func, s.func.insert 0 (.forceLoad x) = .ok func ∧
      t = { s with func } := by
    intro s t ht
    unfold loadAtEntry at ht
    cases hinsert : s.func.insert 0 (.forceLoad x) with
    | error cause =>
      rw [hinsert] at ht
      cases ht
    | ok func =>
      rw [hinsert] at ht
      cases ht
      exact ⟨func, rfl, rfl⟩
  constructor
  · intro s t ht
    obtain ⟨func, -, rfl⟩ := heq s t ht
    rfl
  · intro s t ht
    obtain ⟨func, hinsert, rfl⟩ := heq s t ht
    unfold loadAtEntry
    rw [show s.quiet.func = s.func from rfl, hinsert]
    rfl

theorem plain_foldTo (pos : Nat) (dest : OperandId) (sources : List OperandId) (value : Constant) :
  Plain (·.foldTo pos dest sources value)
  := by
  have hfold : Plain fun s => { s with func := s.func.foldedTo pos dest value } :=
    ⟨fun _ => rfl, fun _ => rfl⟩
  exact (hfold.comp (plain_markAll sources)).comp
    (plain_count fun stats => { stats with folded := stats.folded + 1 })

/-- Folding at one position is steady: where it has no error to report, it does the same with
reports turned off. -/
theorem steady_foldAt (entry : Nat × Inst) :
  Pass.Steady (·.foldAt entry)
  := by
  obtain ⟨pos, inst⟩ := entry
  -- A state that goes on after an error does so because errors are not reported.
  have hreport : ∀ {s t : State} {cause}, s.report cause = .ok t → t = s := by
    intro s t cause ht
    unfold report at ht
    split at ht <;> cases ht
    rfl
  constructor
  · intro s t ht
    unfold foldAt at ht
    dsimp only at ht
    split at ht
    · cases ht
      exact (plain_foldTo ..).options s
    · rw [hreport ht]
    · cases ht
      rfl
  · intro s t ht
    unfold foldAt at ht ⊢
    dsimp only at ht ⊢
    rw [show s.quiet.func = s.func from rfl]
    split at ht
    · cases ht
      exact congrArg Except.ok ((plain_foldTo ..).quiet s)
    · rw [hreport ht]
      rfl
    · cases ht
      rfl

/-- Specializing at one position does not depend on the options. -/
theorem plain_specializeAt (entry : Nat × Inst) :
  Plain (·.specializeAt entry)
  := by
  obtain ⟨pos, inst⟩ := entry
  have hfunc : ∀ s : State, s.quiet.func = s.func := fun _ => rfl
  constructor
  · intro s
    cases inst <;> simp only [specializeAt]
    split <;> rfl
  · intro s
    cases inst <;> simp only [specializeAt, hfunc]
    split <;> rfl

/-- Forwarding at one position is steady. -/
theorem steady_forwardAt (pos : Nat) (location src dest : OperandId) :
  Pass.Steady (·.forwardAt pos location src dest)
  := by
  constructor
  · intro s t ht
    unfold forwardAt at ht
    dsimp only at ht
    generalize Function.insert _ _ _ = inserted at ht
    cases inserted with
    | error cause => cases ht
    | ok func =>
      cases ht
      rfl
  · intro s t ht
    unfold forwardAt at ht ⊢
    dsimp only [quiet, replace] at ht ⊢
    generalize Function.insert _ _ _ = inserted at ht ⊢
    cases inserted with
    | error cause => cases ht
    | ok func =>
      cases ht
      rfl

/-- Forwarding from a position on is steady. -/
theorem steady_forwardFrom (n pos : Nat) :
  Pass.Steady (forwardFrom n pos)
  := by
  induction n generalizing pos with
  | zero =>
    constructor
    · rintro s t ⟨⟩
      rfl
    · rintro s t ⟨⟩
      rfl
  | succ n ih =>
    have hpair : ∀ location src dest, Pass.Steady fun s =>
        s.forwardAt pos location src dest >>= forwardFrom n (pos + 3) :=
      fun location src dest => (steady_forwardAt pos location src dest).bind (ih (pos + 3))
    constructor
    · intro s t ht
      unfold forwardFrom at ht
      split at ht
      · exact (hpair ..).options ht
      · exact (ih (pos + 1)).options ht
    · intro s t ht
      unfold forwardFrom at ht ⊢
      rw [show s.quiet.func = s.func from rfl]
      split at ht
      · exact (hpair ..).quiet ht
      · exact (ih (pos + 1)).quiet ht

theorem plain_removeStore (entry : Nat × Inst) :
  Plain (·.removeStore entry)
  := ((plain_remove entry.1).comp (plain_markAll entry.2.uses)).comp (plain_count _)

/-- The rounds that remove dead stores are steady. -/
theorem steady_removeStores (fuel : Nat) :
  Pass.Steady (removeStores fuel)
  := by
  induction fuel with
  | zero => exact Plain.steady ⟨fun _ => rfl, fun _ => rfl⟩
  | succ fuel ih =>
    apply (Pass.Steady.analyze Function.readIntervals).bind
    have hround : ∀ dead : List (Nat × Inst), Pass.Steady fun s =>
        removeStores fuel (dead.foldl removeStore s).sweep.compact :=
      fun dead => (((Plain.foldl plain_removeStore dead).comp plain_sweep).comp plain_compact).steady.bind ih
    constructor
    · intro s t ht
      split at ht
      · cases ht
        rfl
      · exact (hround _).options ht
    · intro s t ht
      rw [show s.quiet.func = s.func from rfl]
      split at ht
      · cases ht
        rfl
      · exact (hround _).quiet ht

/-- Reading copies at their source does not depend on the options. -/
theorem plain_forwardCopies :
  Plain forwardCopies
  := by
  have hvisit : ∀ (s : State) copies (e : Nat × Inst),
      (CopyScan.visit ⟨s, copies⟩ e).state.ctx.options = s.ctx.options ∧
        CopyScan.visit ⟨s.quiet, copies⟩ e
          = ⟨(CopyScan.visit ⟨s, copies⟩ e).state.quiet, (CopyScan.visit ⟨s, copies⟩ e).copies⟩ := by
    intro s copies e
    unfold CopyScan.visit
    dsimp only
    rw [show CopyScan.source ⟨s.quiet, copies⟩ = CopyScan.source ⟨s, copies⟩ from rfl]
    generalize e.2.mapUses _ = inst
    cases inst with
    | assign dest src =>
      dsimp only
      rw [show (s.quiet.replace e.1 (.assign dest src)).func
          = (s.replace e.1 (.assign dest src)).func from rfl,
        show (s.quiet.replace e.1 (.assign dest src)).isObsolete dest
          = (s.replace e.1 (.assign dest src)).isObsolete dest from rfl]
      split <;> exact ⟨rfl, rfl⟩
    | _ => exact ⟨rfl, rfl⟩
  have hfold : ∀ (entries : List (Nat × Inst)) (s : State) copies,
      (entries.foldl CopyScan.visit ⟨s, copies⟩).state.ctx.options = s.ctx.options ∧
        (entries.foldl CopyScan.visit ⟨s.quiet, copies⟩).state
          = (entries.foldl CopyScan.visit ⟨s, copies⟩).state.quiet := by
    intro entries
    induction entries with
    | nil => exact fun _ _ => ⟨rfl, rfl⟩
    | cons e entries ih =>
      intro s copies
      obtain ⟨hoptions, hquiet⟩ := hvisit s copies e
      obtain ⟨hoptions', hquiet'⟩ := ih (CopyScan.visit ⟨s, copies⟩ e).state
        (CopyScan.visit ⟨s, copies⟩ e).copies
      rw [List.foldl_cons, List.foldl_cons, hquiet]
      exact ⟨hoptions'.trans hoptions, hquiet'⟩
  exact ⟨fun s => (hfold s.func.live s []).1, fun s => (hfold s.func.live s []).2⟩

/-- The rounds that remove dead temps are steady. -/
theorem steady_removeTemps (fuel : Nat) :
  Pass.Steady (removeTemps fuel)
  := by
  induction fuel with
  | zero => exact Plain.steady ⟨fun _ => rfl, fun _ => rfl⟩
  | succ fuel ih =>
    have hmark : Plain markDead :=
      ⟨fun s => (plain_markAll _).options s, fun s => (plain_markAll _).quiet s⟩
    have hrepeat : Pass.Steady fun s =>
        if s.ctx.obsolete.isEmpty then .ok s else removeTemps fuel s.sweep.compact := by
      have hround := (plain_sweep.comp plain_compact).steady.bind ih
      constructor
      · intro s t ht
        split at ht
        · cases ht
          rfl
        · exact hround.options ht
      · intro s t ht
        rw [show s.quiet.ctx.obsolete = s.ctx.obsolete from rfl]
        split at ht
        · rename_i hempty
          cases ht
          rw [if_pos hempty]
        · rename_i hempty
          rw [if_neg hempty]
          exact hround.quiet ht
    exact (Pass.Steady.analyze Function.intervals).bind
      ((hmark.comp plain_forwardCopies).steady.bind hrepeat)

/-- Trying to shorten a jump is steady. -/
theorem steady_shortenAt (entry : Nat × Inst) :
  Pass.Steady (·.shortenAt entry)
  := by
  obtain ⟨pos, inst⟩ := entry
  cases inst with
  | jump l =>
    constructor
    · intro s t ht
      unfold shortenAt at ht
      dsimp only at ht
      cases hl : s.func.labelPosition l with
      | error cause =>
        rw [hl] at ht
        cases ht
      | ok target =>
        rw [hl] at ht
        simp only [Attempt.orStop, bind, Except.bind] at ht
        split at ht <;> cases ht <;> rfl
    · intro s t ht
      unfold shortenAt at ht ⊢
      dsimp only at ht ⊢
      rw [show s.quiet.func = s.func from rfl]
      cases hl : s.func.labelPosition l with
      | error cause =>
        rw [hl] at ht
        cases ht
      | ok target =>
        rw [hl] at ht
        simp only [Attempt.orStop, bind, Except.bind] at ht ⊢
        rw [show s.quiet.ctx.options.shortJumpMax = s.ctx.options.shortJumpMax from rfl]
        split at ht <;> cases ht
        · rename_i hnear
          rw [if_pos hnear]
          rfl
        · rename_i hnear
          rw [if_neg hnear]
          rfl
  | _ => exact Plain.steady ⟨fun _ => rfl, fun _ => rfl⟩

end State

open State in
/-- Every pass keeps the options, and gives the same result without reports. -/
theorem PassName.steady_run (p : PassName) :
  Pass.Steady p.run
  := by
  have hpass : Pass.Steady p.pass := by
    cases p with
    | loadVars => exact .foldlM_func steady_loadAtEntry fun f => f.entryLoads.reverse
    | propagateTypes => exact Plain.steady ⟨fun _ => rfl, fun _ => rfl⟩
    | foldConstants => exact .foldlM_func steady_foldAt fun f => f.live
    | specializeTypes => exact (Plain.foldl_func plain_specializeAt fun f => f.live).steady
    | forwardStores =>
      exact ⟨fun {s _} => (steady_forwardFrom s.func.size 0).options,
        fun {s _} => (steady_forwardFrom s.func.size 0).quiet⟩
    | deadStores =>
      exact ⟨fun {s _} => (steady_removeStores (s.func.size + 1)).options,
        fun {s _} => (steady_removeStores (s.func.size + 1)).quiet⟩
    | deadTemps =>
      exact ⟨fun {s _} => (steady_removeTemps (2 * s.func.size + 2)).options,
        fun {s _} => (steady_removeTemps (2 * s.func.size + 2)).quiet⟩
    | shortJumps => exact .foldlM_func steady_shortenAt fun f => f.live
    | sweep => exact plain_sweep.steady
  exact hpass.bind (plain_sweep.comp plain_compact).steady

end IR

end StackCompiler
