import StackCompiler.Proofs.Passes.Invariants
import StackCompiler.Proofs.Passes.Reporting

/-!
# What the optimizer does on its way

The optimizer runs the passes of its `schedule`.  The removal of dead stores judges stores again
and again by intervals made anew: `State.judgements` lists the states in which it does so.  Every
pass ends with a sweep, and those that repeat what they do sweep each time: `State.sweeps` lists
the states that are swept.  What the changes of passes keep holds of all these states.
-/

namespace StackCompiler.IR

/-- The passes that the optimizer runs under given options, in order. -/
def PassName.schedule (o : Options) : List PassName :=
  .loadVars ::
    if o.optimize then (List.replicate o.rounds.toNat round).flatten ++ [.shortJumps] else []

/-- After the entry loads come rounds and, at the end, short jumps. -/
theorem PassName.mem_afterLoads (o : Options) :
  ∀ p ∈ if o.optimize then (List.replicate o.rounds.toNat round).flatten ++ [.shortJumps] else [],
    p ∈ round ∨ p = .shortJumps
  := by
  intro p hp
  split at hp
  · rcases List.mem_append.mp hp with hp | hp
    · obtain ⟨passes, hpasses, hp⟩ := List.mem_flatten.mp hp
      rw [(List.mem_replicate.mp hpasses).2] at hp
      exact .inl hp
    · exact .inr (List.mem_singleton.mp hp)
  · cases hp

/-- The passes of a round and the shortening of jumps are not the loading of variables. -/
theorem PassName.ne_loadVars {p : PassName} (h : p ∈ round ∨ p = .shortJumps) :
  p ≠ .loadVars
  := by
  rintro rfl
  revert h
  decide

/-- The stores that are judged dead by the intervals of a function. -/
def Function.unreadStores (f : Function) : List (Nat × Inst) := f.live.filter f.isDeadStore

namespace State

variable {s s' t : State} {passes : List PassName}

/-- The state in which the optimizer starts. -/
def initial (f : Function) (o : Options) : State :=
  ⟨f, { options := o, stats := { before := f.size } }⟩

/-! ### Schedules -/

theorem runAll_append (s : State) (passes rest : List PassName) :
  s.runAll (passes ++ rest) = s.runAll passes >>= fun s => s.runAll rest
  := List.foldlM_append ..

/-- Running rounds runs the passes of one round again and again. -/
theorem runRounds_eq (n : Nat) (s : State) :
  runRounds n s = s.runAll (List.replicate n PassName.round).flatten
  := by
  induction n generalizing s with
  | zero => rfl
  | succ n ih =>
    rw [List.replicate_succ, List.flatten_cons, runAll_append]
    change (s.runAll PassName.round >>= fun s => runRounds n s) = _
    simp only [ih]

/-- The optimizer runs its schedule. -/
theorem runPasses_eq (s : State) :
  s.runPasses = s.runAll (PassName.schedule s.ctx.options)
  := by
  unfold runPasses PassName.schedule
  rw [runAll, List.foldlM_cons]
  cases hload : PassName.loadVars.run s with
  | error stopped => rfl
  | ok s₁ =>
    have hoptions := PassName.loadVars.steady_run.options hload
    change (if s₁.ctx.options.optimize then
      runRounds s₁.ctx.options.rounds.toNat s₁ >>= PassName.shortJumps.run else pure s₁)
        = s₁.runAll _
    rw [hoptions]
    split
    · rw [runRounds_eq, runAll_append]
      congr 1
      funext s₂
      change _ = (PassName.shortJumps.run s₂ >>= pure)
      rw [bind_pure]
    · rfl

/-- The optimizer leaves lowered code in order. -/
theorem orderly_runPasses {f : Bytecode.Function} {g : Function} (hlower : lower f = .ok g) {o : Options}
    (h : (initial g o).runPasses = .ok s) :
  s.Orderly
  := by
  rw [runPasses_eq] at h
  rw [← callAll_of_runAll h]
  exact orderly_callAll (orderly_lower hlower rfl) _

/-! ### Judgements -/

/-- The states whose intervals the removal of dead stores goes by, in order. -/
def storeJudgements : Nat → State → List State
  | 0, _ => []
  | fuel + 1, s =>
    match s.analyze Function.readIntervals with
    | .ok judged =>
      judged :: match judged.func.unreadStores with
        | [] => []
        | dead => storeJudgements fuel (dead.foldl removeStore judged).sweep.compact
    | .error _ => []

/-- The states whose intervals the pass over dead stores goes by. -/
def judgements (s : State) : List State := storeJudgements (s.func.size + 1) s

/-- The removal of dead stores judges by the intervals that it finds, and goes on to judge if
stores are dead by them. -/
theorem storeJudgements_succ {s₁ : State} (h : s.analyze Function.readIntervals = .ok s₁) (fuel : Nat) :
  storeJudgements (fuel + 1) s = s₁ :: match s₁.func.unreadStores with
    | [] => []
    | dead => storeJudgements fuel (dead.foldl removeStore s₁).sweep.compact
  := by
  rw [storeJudgements, h]

/-- Stores are judged by the intervals of a state that changes lead to. -/
theorem exists_of_mem_storeJudgements {fuel : Nat} (hs : s.Settled) (ht : t ∈ storeJudgements fuel s) :
  ∃ u, s.Reaches u ∧ u.analyze Function.readIntervals = .ok t
  := by
  induction fuel generalizing s with
  | zero => cases ht
  | succ fuel ih =>
    cases hana : s.analyze Function.readIntervals with
    | error stopped =>
      rw [storeJudgements, hana] at ht
      cases ht
    | ok s₁ =>
      rw [storeJudgements_succ hana] at ht
      rcases List.mem_cons.mp ht with rfl | ht
      · exact ⟨s, .refl hs, hana⟩
      · split at ht
        · cases ht
        · obtain ⟨hedits, hobsolete⟩ := edits_removeUnread hs hana
          obtain ⟨hsweep, hsettled⟩ := settled_sweep hobsolete
          obtain ⟨u, hu, hanalyze⟩ := ih hsettled ht
          have hround : s.Reaches _ := ⟨hedits.trans hsweep, hsettled⟩
          exact ⟨u, hround.trans hu, hanalyze⟩

theorem stats_markAll (ids : List OperandId) (s : State) :
  (s.markAll ids).ctx.stats = s.ctx.stats
  := by
  unfold markAll
  induction ids generalizing s with
  | nil => rfl
  | cons id ids ih => exact ih (s.mark id)

/-- The stores that are removed are counted. -/
theorem count_removeStore (entries : List (Nat × Inst)) (s : State) :
  (entries.foldl removeStore s).ctx.stats.deadStores = s.ctx.stats.deadStores + entries.length
  := by
  induction entries generalizing s with
  | nil => rfl
  | cons e entries ih =>
    have hstep : (s.removeStore e).ctx.stats.deadStores = s.ctx.stats.deadStores + 1 := by
      unfold removeStore count
      simp only [stats_markAll]
      rfl
    rw [List.foldl_cons, ih, hstep, List.length_cons]
    omega

/-- What sweeping one instruction leaves alone. -/
structure SweptAt (s s' : State) (pos : Nat) : Prop where
  operands_eq : s'.func.operands = s.func.operands
  stats_eq : s'.ctx.stats = s.ctx.stats
  fetch_eq : ∀ p, p ≠ pos → s'.func.fetch p = s.func.fetch p

/-- Removing an instruction and marking operands touches its position only. -/
theorem sweptAt_remove (s : State) (pos : Nat) (ids : List OperandId) :
  s.SweptAt ((s.remove pos).markAll ids) pos
  := by
  constructor
  · rw [func_markAll]
    rfl
  · rw [stats_markAll]
    rfl
  · intro p hp
    rw [func_markAll]
    exact (Function.fetch_remove ..).trans (if_neg hp)

/-- Putting an instruction in the place of another touches its position only. -/
theorem sweptAt_replace {inst : Inst} {pos : Nat} (h : s.func.fetch pos = some inst) (new : Inst) :
  s.SweptAt (s.replace pos new) pos
  := by
  refine ⟨rfl, rfl, fun p hp => ?_⟩
  exact (Function.fetch_replace h _ p).trans (if_neg hp)

/-- What sweeping one instruction can do: it stays if nothing that it defines is obsolete, it is
removed, or it is a fork that becomes an assignment. -/
theorem sweepAt_cases (s : State) (pos : Nat) (inst : Inst) :
  (s.sweepAt (pos, inst) = s ∧ ∀ d ∈ inst.defs, d ∉ s.ctx.obsolete) ∨
    (∃ ids, s.sweepAt (pos, inst) = (s.remove pos).markAll ids) ∨
    ∃ src d₁ d₂ dest, inst = .fork src d₁ d₂ ∧ s.sweepAt (pos, inst) = s.replace pos (.assign dest src)
  := by
  have hkept : ∀ {d}, ¬ s.isObsolete d = true → ∀ d' ∈ [d], d' ∉ s.ctx.obsolete := by
    intro d hd d' hd'
    rw [List.mem_singleton.mp hd', ← isObsolete_iff]
    exact hd
  cases inst with
  | assign dest src =>
    simp only [sweepAt]
    split
    · exact .inr (.inl ⟨[], rfl⟩)
    · exact .inl ⟨rfl, hkept ‹_›⟩
  | binary op dest lhs rhs =>
    simp only [sweepAt]
    split
    · exact .inr (.inl ⟨[lhs, rhs], rfl⟩)
    · exact .inl ⟨rfl, hkept ‹_›⟩
  | unary op dest src =>
    simp only [sweepAt]
    split
    · exact .inr (.inl ⟨[src], rfl⟩)
    · exact .inl ⟨rfl, hkept ‹_›⟩
  | fork src d₁ d₂ =>
    simp only [sweepAt]
    split
    · exact .inr (.inl ⟨[src], rfl⟩)
    · exact .inr (.inr ⟨src, d₁, d₂, d₂, rfl, rfl⟩)
    · exact .inr (.inr ⟨src, d₁, d₂, d₁, rfl, rfl⟩)
    · rename_i h₁ h₂
      refine .inl ⟨rfl, List.forall_mem_cons.mpr ⟨?_, hkept (by rw [h₂]; decide)⟩⟩
      exact hkept (by rw [h₁]; decide) d₁ List.mem_cons_self
  | assertion kind arg =>
    simp only [sweepAt]
    split
    · exact .inr (.inl ⟨[], rfl⟩)
    · exact .inl ⟨rfl, fun _ hd => absurd hd List.not_mem_nil⟩
  | _ => exact .inl ⟨rfl, fun _ hd => absurd hd List.not_mem_nil⟩

/-- Sweeping an instruction touches its position only. -/
theorem sweptAt_sweepAt {inst : Inst} {pos : Nat} (h : s.func.fetch pos = some inst) :
  s.SweptAt (s.sweepAt (pos, inst)) pos
  := by
  obtain ⟨heq, -⟩ | ⟨ids, heq⟩ | ⟨src, d₁, d₂, dest, -, heq⟩ := s.sweepAt_cases pos inst
  · rw [heq]
    exact ⟨rfl, rfl, fun _ _ => rfl⟩
  · rw [heq]
    exact sweptAt_remove s pos ids
  · rw [heq]
    exact sweptAt_replace h _

/-- Sweeping instructions from the last to the first leaves operands, counts and other positions
as they were. -/
theorem sweptAll (entries : List (Nat × Inst)) (hsorted : entries.Pairwise fun a b => b.1 < a.1)
    (hfetch : ∀ e ∈ entries, s.func.fetch e.1 = some e.2) :
  (entries.foldl sweepAt s).func.operands = s.func.operands ∧
    (entries.foldl sweepAt s).ctx.stats = s.ctx.stats ∧
    ∀ p, (∀ e ∈ entries, p ≠ e.1) → (entries.foldl sweepAt s).func.fetch p = s.func.fetch p
  := by
  induction entries generalizing s with
  | nil => exact ⟨rfl, rfl, fun _ _ => rfl⟩
  | cons e entries ih =>
    obtain ⟨hbefore, hrest⟩ := List.pairwise_cons.mp hsorted
    have hstep := sweptAt_sweepAt (hfetch e List.mem_cons_self)
    obtain ⟨hoperands, hstats, hkeep⟩ := ih (s := s.sweepAt e) hrest fun e' he' =>
      (hstep.fetch_eq e'.1 (Nat.ne_of_lt (hbefore e' he'))).trans (hfetch e' (List.mem_cons_of_mem _ he'))
    refine ⟨hoperands.trans hstep.operands_eq, hstats.trans hstep.stats_eq, fun p hp => ?_⟩
    rw [List.foldl_cons, hkeep p fun e' he' => hp e' (List.mem_cons_of_mem _ he')]
    exact hstep.fetch_eq p (hp e List.mem_cons_self)

theorem pairwise_reverse_live (f : Function) :
  f.live.reverse.Pairwise fun a b => b.1 < a.1
  := List.pairwise_reverse.mpr f.pairwise_live

theorem fetch_of_mem_reverse_live {f : Function} {e : Nat × Inst} (he : e ∈ f.live.reverse) :
  f.fetch e.1 = some e.2
  := Function.mem_live.mp (List.mem_reverse.mp he)

/-- The pass over dead stores counts those that are judged dead. -/
theorem count_removeStores {fuel : Nat} (h : removeStores fuel s = .ok s') :
  s'.ctx.stats.deadStores
    = s.ctx.stats.deadStores + ((storeJudgements fuel s).flatMap fun j => j.func.unreadStores).length
  := by
  induction fuel generalizing s with
  | zero =>
    cases h
    rfl
  | succ fuel ih =>
    cases hana : s.analyze Function.readIntervals with
    | error stopped =>
      rw [removeStores, hana] at h
      cases h
    | ok s₁ =>
      have hctx := (analyze_eq_ok hana).2
      rw [removeStores_succ hana] at h
      rw [storeJudgements_succ hana, List.flatMap_cons, List.length_append, ← hctx]
      change (match s₁.func.unreadStores with
        | [] => pure s₁
        | dead => removeStores fuel (dead.foldl removeStore s₁).sweep.compact) = Except.ok s' at h
      generalize s₁.func.unreadStores = dead at h ⊢
      cases dead with
      | nil =>
        cases h
        rfl
      | cons e rest =>
        have hround := ih h
        have hsweep := (sweptAll (s := (e :: rest).foldl removeStore s₁) _ (pairwise_reverse_live _)
          fun e he => fetch_of_mem_reverse_live he).2.1
        rw [hround]
        change (State.sweep _).ctx.stats.deadStores + _ = _
        rw [show (State.sweep ((e :: rest).foldl removeStore s₁)).ctx.stats = _ from hsweep,
          count_removeStore, Nat.add_assoc]

/-! ### Sweeps -/

/-- The states that the removal of dead temps sweeps. -/
def tempSweeps : Nat → State → List State
  | 0, _ => []
  | fuel + 1, s =>
    match s.analyze Function.intervals with
    | .ok judged =>
      let marked := judged.markDead.forwardCopies
      if marked.ctx.obsolete.isEmpty then [] else marked :: tempSweeps fuel marked.sweep.compact
    | .error _ => []

/-- The states that a pass sweeps before it ends. -/
def innerSweeps (s : State) : PassName → List State
  | .deadStores =>
    (s.judgements.filter fun j => !j.func.unreadStores.isEmpty).map fun j =>
      j.func.unreadStores.foldl removeStore j
  | .deadTemps => tempSweeps (2 * s.func.size + 2) s
  | .sweep => [s]
  | _ => []

/-- The states that a call of a pass sweeps, the one after the pass included. -/
def passSweeps (s : State) (p : PassName) : List State :=
  s.innerSweeps p ++ match p.pass s with
    | .ok s' => [s']
    | .error _ => []

/-- The states that calls of passes sweep, up to one that stops with an error. -/
def sweeps (s : State) : List PassName → List State
  | [] => []
  | p :: passes =>
    s.passSweeps p ++ match p.run s with
      | .ok s' => s'.sweeps passes
      | .error _ => []

/-- The states that the removal of dead temps sweeps are reached by changes. -/
theorem reaches_of_mem_tempSweeps {fuel : Nat} (hs : s.Settled) (ht : t ∈ tempSweeps fuel s) :
  s.Reaches t
  := by
  induction fuel generalizing s with
  | zero => cases ht
  | succ fuel ih =>
    unfold tempSweeps at ht
    split at ht
    · rename_i judged hana
      have hmarked := reaches_forwardDead hs hana
      dsimp only at ht
      split at ht
      · cases ht
      · rcases List.mem_cons.mp ht with rfl | ht
        · exact hmarked
        · obtain ⟨hsweep, hsettled⟩ := settled_sweep hmarked.settled.obsolete
          have hround : s.Reaches _ := ⟨hmarked.edits.trans hsweep, hsettled⟩
          exact hround.trans (ih hsettled ht)
    · cases ht

/-- The states that a pass sweeps before it ends are reached by changes. -/
theorem edits_of_mem_innerSweeps {p : PassName} (hs : s.Settled) (ht : t ∈ s.innerSweeps p) :
  Edits s.func t.func
  := by
  cases p with
  | deadStores =>
    obtain ⟨j, hj, rfl⟩ := List.mem_map.mp ht
    obtain ⟨u, hreach, hana⟩ := exists_of_mem_storeJudgements hs (List.mem_filter.mp hj).1
    exact hreach.edits.trans (edits_removeUnread hreach.settled hana).1
  | deadTemps => exact (reaches_of_mem_tempSweeps hs ht).edits
  | sweep =>
    obtain rfl := List.mem_singleton.mp ht
    exact .refl
  | _ => cases ht

end State

namespace Kept

variable {P : Function → Prop} {s t : State}

/-- What passes keep holds of the states that a pass sweeps. -/
theorem of_mem_passSweeps (hP : Kept P) {p : PassName} (hp : p ∈ PassName.round ∨ p = .shortJumps)
    (hs : s.Settled) (h : P s.func) (ht : t ∈ s.passSweeps p) :
  P t.func
  := by
  rcases List.mem_append.mp ht with ht | ht
  · exact hP.edits h (State.edits_of_mem_innerSweeps hs ht)
  · split at ht
    · rename_i s' hpass
      rw [List.mem_singleton.mp ht]
      rcases hp with hround | rfl
      · have hreach := PassName.reaches_pass hround hs
        rw [hpass] at hreach
        exact hP.edits h hreach.edits
      · exact (hP.shortJumps hs h hpass).2
    · cases ht

/-- What the changes of passes keep holds of every state that is swept. -/
theorem of_mem_sweeps (hP : Kept P) {passes : List PassName}
    (hpasses : ∀ p ∈ passes, p ∈ PassName.round ∨ p = .shortJumps) (hs : s.Settled) (h : P s.func)
    (ht : t ∈ s.sweeps passes) :
  P t.func
  := by
  induction passes generalizing s with
  | nil => cases ht
  | cons p passes ih =>
    have hp := hpasses p List.mem_cons_self
    rcases List.mem_append.mp ht with ht | ht
    · exact hP.of_mem_passSweeps hp hs h ht
    · split at ht
      · rename_i s' hrun
        obtain ⟨hs', h'⟩ := hP.run (PassName.ne_loadVars hp) hs h hrun
        exact ih (fun q hq => hpasses q (List.mem_cons_of_mem _ hq)) hs' h' ht
      · cases ht

/-- What passes keep, and lowered code with its entry loads has, holds of every state that the
optimizer sweeps. -/
theorem of_mem_schedule (hP : Kept P) {f : Bytecode.Function} {g : Function} (hlower : lower f = .ok g)
    (hempty : f.EmptyAtJumps) (h : P (g.withLoads g.entryLoads)) {o : Options}
    (ht : t ∈ (State.initial g o).sweeps (PassName.schedule o)) :
  P t.func
  := by
  obtain ⟨hload, -, -⟩ := State.loadVars_lower hlower hempty (rfl : (State.initial g o).ctx.obsolete = [])
  obtain ⟨-, s, hrun, hreach⟩ :=
    State.reaches_loadVars hlower hempty (rfl : (State.initial g o).ctx.obsolete = [])
  rcases List.mem_append.mp ht with ht | ht
  · change t ∈ [] ++ (match IR.loadVars (State.initial g o) with
      | .ok s' => [s']
      | .error _ => []) at ht
    rw [show IR.loadVars (State.initial g o) = _ from hload] at ht
    rw [List.mem_singleton.mp ht]
    exact h
  · rw [show PassName.loadVars.run (State.initial g o) = _ from hrun] at ht
    exact hP.of_mem_sweeps (PassName.mem_afterLoads o) hreach.settled (hP.edits h hreach.edits) ht

/-- What passes keep holds of the code that the optimizer leaves if it holds once the entry loads
are in. -/
theorem runPasses_of_loads (hP : Kept P) (hs : s.Settled) (h : P (s.func.withLoads s.func.entryLoads))
    (hrun : s.runPasses = .ok t) :
  P t.func
  := by
  rw [State.runPasses_eq] at hrun
  obtain ⟨s₁, hload, hrest⟩ := State.runAll_cons_eq_ok hrun
  obtain ⟨s₀, hpass, hsweep⟩ := Attempt.bind_eq_ok hload
  cases hsweep
  obtain ⟨hloads, hsettled⟩ := State.settled_loadVars hs
  cases hloads.symm.trans hpass
  obtain ⟨hedits, hsettled'⟩ := State.settled_sweep hsettled.obsolete
  refine (hP.runAll ?_ hsettled' (hP.edits h hedits) hrest).2
  exact fun p hp => PassName.ne_loadVars (PassName.mem_afterLoads _ p hp)

end Kept

end StackCompiler.IR
