import StackCompiler.Proofs.Passes.Paths
import StackCompiler.Proofs.Passes.ShortJumps
import StackCompiler.Proofs.Passes.Steadiness

/-!
# The optimizer stops for reported errors only

On lowered code the passes find every label that they look for and insert while no deletion is
pending.  So the only errors are those of operations on literals that are bound to fail, and
these are reported only if the options ask for it.
-/

namespace StackCompiler.IR

open Bytecode (Constant)

/-! ### Operations on literals -/

theorem errorClass_of_integerOf {c : Constant} {cause : CompileError} (h : integerOf c = .error cause) :
  cause.errorClass = .user
  := by
  cases c <;> cases h <;> rfl

theorem errorClass_of_booleanOf {c : Constant} {cause : CompileError} (h : booleanOf c = .error cause) :
  cause.errorClass = .user
  := by
  cases c <;> cases h <;> rfl

theorem errorClass_of_onIntegers {α : Type} {l r : Constant} {operation : Int64 → Int64 → α}
    {cause : CompileError} (h : onIntegers l r operation = .error cause) :
  cause.errorClass = .user
  := by
  cases l <;> cases r <;> cases h <;> rfl

/-- An operation on literals that fails does so through the fault of the program. -/
theorem BinOp.errorClass_of_fold {op : BinOp} {l r : Constant} {cause : CompileError}
    (h : op.fold l r = .error cause) :
  cause.errorClass = .user
  := by
  cases op with
  | add => cases l <;> cases r <;> cases h
  | eq | fastEq => cases h
  | intAdd | sub | mul | gt | geq => exact errorClass_of_onIntegers h
  | div =>
    simp only [fold] at h
    cases hl : integerOf l with
    | error e =>
      rw [hl] at h
      cases h
      exact errorClass_of_integerOf hl
    | ok a =>
      cases hr : integerOf r with
      | error e =>
        rw [hl, hr] at h
        cases h
        exact errorClass_of_integerOf hr
      | ok b =>
        simp only [hl, hr, bind, Except.bind] at h
        split at h <;> cases h
        rfl
  | and | or =>
    simp only [fold] at h
    cases hl : booleanOf l with
    | error e =>
      rw [hl] at h
      cases h
      exact errorClass_of_booleanOf hl
    | ok a =>
      simp only [hl, bind, Except.bind] at h
      cases hr : booleanOf r with
      | error e =>
        rw [hr] at h
        split at h <;> cases h
        exact errorClass_of_booleanOf hr
      | ok b =>
        rw [hr] at h
        split at h <;> cases h

theorem UnOp.errorClass_of_fold {op : UnOp} {c : Constant} {cause : CompileError}
    (h : op.fold c = .error cause) :
  cause.errorClass = .user
  := by
  cases op <;> cases c <;> cases h <;> rfl

theorem Function.errorClass_of_foldInst? {f : Function} {inst : Inst} {dest : OperandId}
    {sources : List OperandId} {cause : CompileError}
    (h : f.foldInst? inst = some (dest, sources, .error cause)) :
  cause.errorClass = .user
  := by
  rcases foldInst?_eq_some h with ⟨op, lhs, rhs, l, r, -, -, -, -, hfold⟩ | ⟨op, src, c, -, -, -, hfold⟩
  · exact BinOp.errorClass_of_fold hfold.symm
  · exact UnOp.errorClass_of_fold hfold.symm

namespace State

variable {s t : State} {stopped : Stopped State}

/-! ### Analyses -/

/-- If an analysis of a state fails, it fails on its function, and the state has the function that
it left. -/
theorem error_of_analyze {analysis : Function → Attempt Function Function}
    (h : s.analyze analysis = .error stopped) :
  ∃ e, analysis s.func = .error e ∧ e.state = stopped.state.func
  := by
  unfold analyze at h
  cases ha : analysis s.func with
  | ok f =>
    rw [ha] at h
    cases h
  | error e =>
    rw [ha] at h
    cases h
    exact ⟨e, rfl, rfl⟩

/-- Removal of dead stores stops at an analysis only. -/
theorem error_of_removeStores {fuel : Nat} (h : removeStores fuel s = .error stopped) :
  ∃ (f : Function) (e : Stopped Function), f.readIntervals = .error e ∧ e.state = stopped.state.func
  := by
  induction fuel generalizing s with
  | zero => cases h
  | succ fuel ih =>
    unfold removeStores at h
    cases hana : s.analyze Function.readIntervals with
    | error stopped' =>
      rw [hana] at h
      cases h
      exact ⟨s.func, error_of_analyze hana⟩
    | ok s₁ =>
      rw [hana] at h
      simp only [bind, Except.bind] at h
      split at h
      · cases h
      · exact ih h

/-- Removal of temps stops at an analysis only. -/
theorem error_of_removeTemps {fuel : Nat} (h : removeTemps fuel s = .error stopped) :
  ∃ (f : Function) (e : Stopped Function), f.intervals = .error e ∧ e.state = stopped.state.func
  := by
  induction fuel generalizing s with
  | zero => cases h
  | succ fuel ih =>
    unfold removeTemps at h
    cases hana : s.analyze Function.intervals with
    | error stopped' =>
      rw [hana] at h
      cases h
      exact ⟨s.func, error_of_analyze hana⟩
    | ok s₁ =>
      rw [hana] at h
      simp only [bind, Except.bind] at h
      split at h
      · cases h
      · exact ih h

/-- Forwarding finds no pending deletions. -/
theorem exists_forwardFrom (n pos : Nat) (hp : s.func.pending = []) :
  ∃ t, forwardFrom n pos s = .ok t
  := by
  induction n generalizing pos s with
  | zero => exact ⟨s, rfl⟩
  | succ n ih =>
    unfold forwardFrom
    split
    · rename_i location src dest hpair
      obtain ⟨stats, hstep⟩ := forwardAt_eq hp pos location src dest
      rw [hstep]
      exact ih (pos + 3) ((Function.pending_forwarded ..).trans hp)
    · exact ih (pos + 1) hp

/-- Shortening succeeds on code in order, since all labels are found. -/
theorem exists_shortJumps (h : s.Orderly) :
  ∃ t, shortJumps s = .ok t
  := by
  have hvisit : ∀ s' : State, s'.func.labels = s.func.labels → ∀ e ∈ s.func.live,
      ∃ t, s'.shortenAt e = .ok t ∧ t.func.labels = s.func.labels := by
    intro s' hs' ⟨pos, inst⟩ he
    cases inst with
    | jump l =>
      obtain ⟨q, hq⟩ := h.wired.target pos _ l (Function.mem_live.mp he) rfl
      have hl : s'.func.labelPosition l = .ok q := by
        unfold Function.labelPosition
        rw [hs', (h.obsolete.wellFormed.labels l q).mpr hq]
      simp only [shortenAt, hl, Attempt.orStop, bind, Except.bind]
      split
      · exact ⟨_, rfl, hs'⟩
      · exact ⟨_, rfl, hs'⟩
    | _ => exact ⟨s', rfl, hs'⟩
  obtain ⟨t, ht, -⟩ := Attempt.exists_foldlM (fun s' => s'.func.labels = s.func.labels) shortenAt
    s.func.live rfl hvisit
  exact ⟨t, ht⟩

/-- The code that a pass leaves is in order also if the pass stops with an error. -/
theorem Orderly.of_error {p : PassName} {stopped : Stopped State} (h : s.Orderly)
    (hpass : p.pass s = .error stopped) :
  stopped.state.Orderly
  := by
  have hstopped := orderly_run h p
  unfold PassName.run Pass.run at hstopped
  rw [hpass] at hstopped
  exact hstopped

/-- Code with the same instructions as code in order has what the analysis of intervals needs. -/
theorem Orderly.of_sameCode {t : State} {f e : Function} (h : t.Orderly) (hsame : f.SameCode e)
    (he : e = t.func) :
  f.Wired ∧ f.WellFormed
  := by
  subst he
  have wf := h.obsolete.wellFormed
  exact ⟨hsame.symm.wired wf h.wired, (hsame.symm.keepsOrder wf).wellFormed⟩

/-- The removal of dead stores succeeds on code in order. -/
theorem exists_removeStores (h : s.Orderly) :
  ∃ t, PassName.deadStores.pass s = .ok t
  := by
  cases hpass : PassName.deadStores.pass s with
  | ok t => exact ⟨t, rfl⟩
  | error stopped =>
    obtain ⟨f, e, he, hstate⟩ := error_of_removeStores hpass
    have hhints := f.sameHints_readIntervals
    rw [he] at hhints
    obtain ⟨hw, wf⟩ := (h.of_error hpass).of_sameCode hhints.same hstate
    obtain ⟨f', hf'⟩ := hw.exists_readIntervals wf
    rw [hf'] at he
    cases he

/-- The removal of dead temps succeeds on code in order. -/
theorem exists_removeTemps (h : s.Orderly) :
  ∃ t, PassName.deadTemps.pass s = .ok t
  := by
  cases hpass : PassName.deadTemps.pass s with
  | ok t => exact ⟨t, rfl⟩
  | error stopped =>
    obtain ⟨f, e, he, hstate⟩ := error_of_removeTemps hpass
    have hhints := f.sameHints_intervals
    rw [he] at hhints
    obtain ⟨hw, wf⟩ := (h.of_error hpass).of_sameCode hhints.same hstate
    obtain ⟨f', hf'⟩ := hw.exists_intervals wf
    rw [hf'] at he
    cases he

end State

/-- A call of a pass on code in order stops only to report an error of the program. -/
theorem PassName.cause_of_run {s : State} {p : PassName} {stopped : Stopped State} (h : s.Orderly)
    (hrun : p.run s = .error stopped) :
  s.ctx.options.reportErrors = true ∧ stopped.cause.errorClass = .user
  := by
  have hpass : p.pass s = .error stopped := by
    unfold PassName.run Pass.run at hrun
    cases hs : p.pass s with
    | error stopped' =>
      rw [hs] at hrun
      cases hrun
      rfl
    | ok t =>
      rw [hs] at hrun
      cases hrun
  cases p with
  | loadVars =>
    rw [show PassName.loadVars.pass s = IR.loadVars s from rfl,
      (State.settled_loadVars h.toSettled).1] at hpass
    cases hpass
  | propagateTypes | specializeTypes | sweep => cases hpass
  | foldConstants =>
    obtain ⟨s', ⟨pos, inst⟩, -, hoptions, herror⟩ := Attempt.exists_error_foldlM
      (fun s' => s'.ctx.options = s.ctx.options) State.foldAt s.func.live rfl
      (fun s' hs' e _ t ht => ((State.steady_foldAt e).options ht).trans hs') hpass
    unfold State.foldAt at herror
    dsimp only at herror
    split at herror
    · cases herror
    · rename_i dest sources cause hfold
      unfold State.report at herror
      split at herror
      · rename_i hreport
        cases herror
        exact ⟨hoptions ▸ hreport, Function.errorClass_of_foldInst? hfold⟩
      · cases herror
    · cases herror
  | forwardStores =>
    obtain ⟨t, ht⟩ := State.exists_forwardFrom s.func.size 0 h.pending
    exact absurd (ht.symm.trans hpass) nofun
  | deadStores =>
    obtain ⟨t, ht⟩ := State.exists_removeStores h
    exact absurd (ht.symm.trans hpass) nofun
  | deadTemps =>
    obtain ⟨t, ht⟩ := State.exists_removeTemps h
    exact absurd (ht.symm.trans hpass) nofun
  | shortJumps =>
    obtain ⟨t, ht⟩ := State.exists_shortJumps h
    exact absurd (ht.symm.trans hpass) nofun

/-! ### Runs of passes -/

/-- A state with given options whose code is in order, short jumps next to their labels. -/
structure State.Ready (o : Options) (s : State) : Prop extends s.Orderly where
  close : s.func.Close
  options_eq : s.ctx.options = o

/-- A pass that gives code in order, or stops to report an error of the program. -/
def Pass.Careful (o : Options) (pass : Pass) : Prop :=
  ∀ s, s.Ready o → (∃ t, pass s = .ok t ∧ t.Ready o) ∨
    ∃ stopped, pass s = .error stopped ∧ o.reportErrors = true ∧ stopped.cause.errorClass = .user

namespace Pass.Careful

variable {o : Options} {pass pass' : Pass}

/-- Two careful passes, one after the other, are a careful pass. -/
theorem bind (h : Careful o pass) (h' : Careful o pass') :
  Careful o fun s => pass s >>= pass'
  := by
  intro s hs
  dsimp only
  rcases h s hs with ⟨t, ht, hready⟩ | ⟨stopped, hstopped, hcause⟩
  · rcases h' t hready with hok | herror
    · left
      rw [ht]
      exact hok
    · right
      rw [ht]
      exact herror
  · right
    rw [hstopped]
    exact ⟨stopped, rfl, hcause⟩

theorem ok :
  Careful o .ok
  := fun s hs => .inl ⟨s, rfl, hs⟩

end Pass.Careful

/-- Every pass is careful, with the sweep after it. -/
theorem PassName.careful_run {o : Options} (hmax : o.shortJumpMax.toNat ≤ 1) (p : PassName) :
  Pass.Careful o p.run
  := by
  intro s hs
  cases hrun : p.run s with
  | error stopped =>
    right
    obtain ⟨hreport, hcause⟩ := PassName.cause_of_run hs.toOrderly hrun
    exact ⟨stopped, rfl, hs.options_eq ▸ hreport, hcause⟩
  | ok t =>
    left
    have horderly := State.orderly_run hs.toOrderly p
    have hclose := State.close_run hs.toOrderly hs.close (hs.options_eq ▸ hmax) p
    rw [hrun] at horderly hclose
    exact ⟨t, rfl, horderly, hclose, (p.steady_run.options hrun).trans hs.options_eq⟩

namespace State

/-- Passes in a row are careful. -/
theorem careful_runAll {o : Options} (hmax : o.shortJumpMax.toNat ≤ 1) (passes : List PassName) :
  Pass.Careful o fun s => s.runAll passes
  := by
  induction passes with
  | nil => exact Pass.Careful.ok
  | cons p passes ih => exact (p.careful_run hmax).bind ih

/-- Passes in a row are steady. -/
theorem steady_runAll (passes : List PassName) :
  Pass.Steady fun s => s.runAll passes
  := Pass.Steady.foldlM PassName.steady_run passes

/-- Rounds of passes are careful. -/
theorem careful_runRounds {o : Options} (hmax : o.shortJumpMax.toNat ≤ 1) (n : Nat) :
  Pass.Careful o (runRounds n)
  := by
  induction n with
  | zero => exact Pass.Careful.ok
  | succ n ih => exact (careful_runAll hmax PassName.round).bind ih

/-- Rounds of passes are steady. -/
theorem steady_runRounds (n : Nat) :
  Pass.Steady (runRounds n)
  := by
  induction n with
  | zero => exact Plain.steady ⟨fun _ => rfl, fun _ => rfl⟩
  | succ n ih => exact (steady_runAll PassName.round).bind ih

/-- The optimizer is careful, as its passes are. -/
theorem careful_runPasses {o : Options} (hmax : o.shortJumpMax.toNat ≤ 1) :
  Pass.Careful o runPasses
  := by
  apply (PassName.loadVars.careful_run hmax).bind
  intro s hs
  dsimp only
  split
  · exact ((careful_runRounds hmax _).bind (PassName.shortJumps.careful_run hmax)) s hs
  · exact .inl ⟨s, rfl, hs⟩

/-- The optimizer is steady, as its passes are. -/
theorem steady_runPasses :
  Pass.Steady runPasses
  := by
  apply (PassName.loadVars.steady_run).bind
  have hrounds : ∀ n, Pass.Steady fun s => runRounds n s >>= PassName.shortJumps.run :=
    fun n => (steady_runRounds n).bind PassName.shortJumps.steady_run
  constructor
  · intro s t ht
    split at ht
    · exact (hrounds _).options ht
    · cases ht
      rfl
  · intro s t ht
    rw [show s.quiet.ctx.options.optimize = s.ctx.options.optimize from rfl,
      show s.quiet.ctx.options.rounds = s.ctx.options.rounds from rfl]
    split at ht
    · rename_i hoptimize
      rw [if_pos hoptimize]
      exact (hrounds _).quiet ht
    · rename_i hoptimize
      rw [if_neg hoptimize]
      cases ht
      rfl

end State

/-- The optimizer on lowered code gives code in order with its intervals, or stops to report an
error of the program. -/
theorem optimize_cases {f : Bytecode.Function} {g : Function} (h : lower f = .ok g) {o : Options}
    (hmax : o.shortJumpMax.toNat ≤ 1) :
  (∃ t, optimize g o = .ok t ∧ t.Ready o ∧ ∃ f' : Function, f'.intervals = .ok t.func) ∨
    ∃ stopped, optimize g o = .error stopped ∧ o.reportErrors = true ∧
      stopped.cause.errorClass = .user
  := by
  have hstart : State.Ready o ⟨g, { options := o, stats := { before := g.size } }⟩ :=
    ⟨State.orderly_lower h rfl, Lowering.close_lower h, rfl⟩
  unfold optimize
  rcases State.careful_runPasses hmax _ hstart with ⟨t, ht, hready⟩ | ⟨stopped, hstopped, hcause⟩
  · left
    rw [ht]
    obtain ⟨f', hf'⟩ := hready.wired.exists_intervals hready.obsolete.wellFormed
    have hana : t.analyze Function.intervals = .ok { t with func := f' } := by
      unfold State.analyze
      rw [hf']
      rfl
    have hhints := t.func.sameHints_intervals
    rw [hf'] at hhints
    have hsame : t.func.SameCode f' := hhints.same
    obtain ⟨hobsolete, hpending⟩ := hready.toSettled.annotate hsame
    have hwired := hsame.wired hready.obsolete.wellFormed hready.wired
    refine ⟨({ t with func := f' } : State).count fun stats => { stats with after := f'.size },
      ?_, ?_, t.func, hf'⟩
    · change (t.analyze Function.intervals >>= _) = _
      rw [hana]
      rfl
    · exact ⟨⟨⟨hobsolete, hpending⟩, hwired⟩, hsame.close hready.close, hready.options_eq⟩
  · right
    rw [hstopped]
    exact ⟨stopped, rfl, hcause⟩

/-- What the optimizer gives it gives without reports as well. -/
theorem optimize_quiet {g : Function} {o : Options} {t : State} (h : optimize g o = .ok t) :
  optimize g o.quiet = .ok t.quiet
  := by
  have hsteady : Pass.Steady fun s => do
      let s ← State.runPasses s
      let s ← s.analyze Function.intervals
      return s.count fun stats => { stats with after := s.func.size } := by
    apply State.steady_runPasses.bind
    apply (Pass.Steady.analyze _).bind
    exact State.Plain.steady ⟨fun _ => rfl, fun _ => rfl⟩
  exact hsteady.quiet h

end StackCompiler.IR
