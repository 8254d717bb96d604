import StackCompiler.Proofs.Passes.Weight

/-!
# The elimination loops end

Dead temps and dead stores are removed in rounds until a round finds nothing.  Each round but the
last takes weight off the code.  Only a round for dead temps that starts with marks left over from
before may take nothing off, and it leaves no marks.  So the bounds on the number of rounds are
never reached, in any code and from any marks.
-/

namespace StackCompiler

/-! ### Loops -/

namespace Attempt

variable {σ : Type} {round : σ → Attempt σ (ForInStep σ)} {s t : σ}

/-- What a loop comes to: the state after its last round, or the error that stops it. -/
inductive Loops (round : σ → Attempt σ (ForInStep σ)) : σ → Attempt σ σ → Prop where
  | stop {s : σ} {stopped : Stopped σ} (error : round s = .error stopped) : Loops round s (.error stopped)
  | last {s t : σ} (done : round s = .ok (.done t)) : Loops round s (.ok t)
  | again {s t : σ} {result : Attempt σ σ} (yield : round s = .ok (.yield t)) (rest : Loops round t result) :
      Loops round s result

/-- A loop of at most so many rounds. -/
def repeatRound (round : σ → Attempt σ (ForInStep σ)) : Nat → σ → Attempt σ σ
  | 0, s => .ok s
  | n + 1, s => do
    match ← round s with
    | .done t => return t
    | .yield t => repeatRound round n t

/-- A loop that comes to a state has a last round, which gives this state. -/
theorem Loops.exists_last {result : Attempt σ σ} (h : Loops round s result) (hresult : result = .ok t) :
  ∃ u, round u = .ok (.done t)
  := by
  induction h with
  | stop => cases hresult
  | last hdone =>
    cases hresult
    exact ⟨_, hdone⟩
  | again _ _ ih => exact ih hresult

/-- A bound above a weight that every round makes smaller is not reached. -/
theorem loops_repeatRound (weight : σ → Nat)
    (hround : ∀ s t, round s = .ok (.yield t) → weight t < weight s) {n : Nat} (h : weight s < n) :
  Loops round s (repeatRound round n s)
  := by
  induction n generalizing s with
  | zero => cases h
  | succ n ih =>
    rw [repeatRound]
    cases hs : round s with
    | error stopped => exact .stop hs
    | ok step =>
      cases step with
      | done t => exact .last hs
      | yield t =>
        have := hround s t hs
        exact .again hs (ih (by omega))

end Attempt

namespace IR

namespace State

/-- One round of the removal of dead temps. -/
def tempRound (s : State) : Attempt State (ForInStep State) := do
  let s ← s.analyze Function.intervals
  let s := s.markDead.forwardCopies
  return if s.ctx.obsolete.isEmpty then .done s else .yield s.sweep.compact

/-- One round of the removal of dead stores. -/
def storeRound (s : State) : Attempt State (ForInStep State) := do
  let s ← s.analyze Function.readIntervals
  let dead := s.func.unreadStores
  return if dead.isEmpty then .done s else .yield (dead.foldl removeStore s).sweep.compact

/-- The removal of dead temps repeats its round, up to a bound. -/
theorem removeTemps_eq_repeatRound (n : Nat) (s : State) :
  removeTemps n s = Attempt.repeatRound tempRound n s
  := by
  induction n generalizing s with
  | zero => rfl
  | succ n ih =>
    rw [removeTemps, Attempt.repeatRound, tempRound]
    cases s.analyze Function.intervals with
    | error stopped => rfl
    | ok s₁ =>
      simp only [bind, Except.bind, pure, Except.pure]
      split
      · rfl
      · exact ih _

/-- The removal of dead stores repeats its round, up to a bound. -/
theorem removeStores_eq_repeatRound (n : Nat) (s : State) :
  removeStores n s = Attempt.repeatRound storeRound n s
  := by
  induction n generalizing s with
  | zero => rfl
  | succ n ih =>
    cases hana : s.analyze Function.readIntervals with
    | error stopped =>
      rw [removeStores, Attempt.repeatRound, storeRound, hana]
      rfl
    | ok s₁ =>
      rw [removeStores_succ hana, Attempt.repeatRound, storeRound, hana]
      simp only [bind, Except.bind, pure, Except.pure]
      by_cases hdead : s₁.func.unreadStores = []
      · rw [if_pos (List.isEmpty_iff.mpr hdead)]
        split
        · rfl
        · rename_i hne
          exact absurd hdead hne
      · rw [if_neg fun h => hdead (List.isEmpty_iff.mp h)]
        split
        · exact absurd ‹_› hdead
        · exact ih _

end State

/-! ### Copies that are read at their source -/

/-- What the scan for copies does in any code, once it has come by some positions: it renames reads
of marked operands, and marks what is copied at these positions. -/
structure CopyScan.Renames (s : State) (scan : CopyScan) (done : List Nat) : Prop where
  operands_eq : scan.state.func.operands = s.func.operands
  size_eq : scan.state.func.size = s.func.size
  fetch_eq : ∀ p, ∃ r : OperandId → OperandId,
    scan.state.func.fetch p = (s.func.fetch p).map (Inst.mapUses r) ∧
      ∀ x, r x ≠ x → x ∈ scan.state.ctx.obsolete
  source : ∀ x, scan.source x ≠ x → x ∈ scan.state.ctx.obsolete
  marked : ∀ x ∈ scan.state.ctx.obsolete, x ∈ s.ctx.obsolete ∨ ∃ p, s.func.DefinesAt p x
  kept : s.ctx.obsolete ⊆ scan.state.ctx.obsolete
  copied : ∀ p ∈ done, ∀ d x, scan.state.func.fetch p = some (.assign d x) →
    s.func.isTemp d = true → s.func.isTemp x = true → d ∈ scan.state.ctx.obsolete

namespace CopyScan.Renames

variable {s : State} {scan : CopyScan} {done : List Nat} {pos : Nat} {inst : Inst}

theorem isTemp_eq (h : scan.Renames s done) (id : OperandId) :
  scan.state.func.isTemp id = s.func.isTemp id
  := by
  unfold Function.isTemp Function.operand
  rw [h.operands_eq]

/-- A copy is noted, and its target is marked. -/
theorem mark (h : scan.Renames s done) {d src : OperandId} (hd : s.func.DefinesAt pos d) :
  Renames s ⟨scan.state.mark d, scan.copies.put d src⟩ done
  := by
  have hmark : ∀ {x}, x ∈ scan.state.ctx.obsolete → x ∈ (scan.state.mark d).ctx.obsolete :=
    fun hx => (IdSet.mem_add ..).mpr (.inr hx)
  refine ⟨h.operands_eq, h.size_eq, fun p => ?_, fun x hx => ?_, fun x hx => ?_, fun x hx => hmark (h.kept hx), ?_⟩
  · obtain ⟨r, hfetch, hr⟩ := h.fetch_eq p
    exact ⟨r, hfetch, fun x hx => hmark (hr x hx)⟩
  · by_cases hxd : x = d
    · exact (IdSet.mem_add ..).mpr (.inl hxd)
    · apply hmark
      apply h.source
      unfold CopyScan.source at hx ⊢
      rwa [Table.at?_put, if_neg hxd] at hx
  · rcases (IdSet.mem_add ..).mp hx with rfl | hx
    · exact .inr ⟨pos, hd⟩
    · exact h.marked x hx
  · exact fun p hp d x hfetch hd hx => hmark (h.copied p hp d x hfetch hd hx)

/-- The instruction at a new position reads the sources of copies. -/
theorem replace (h : scan.Renames s done) (hfetch : s.func.fetch pos = some inst) (hpos : pos ∉ done) :
  Renames s { scan with state := scan.state.replace pos (inst.mapUses scan.source) } done ∧
    (scan.state.replace pos (inst.mapUses scan.source)).func.fetch pos = some (inst.mapUses scan.source)
  := by
  obtain ⟨r, hold, -⟩ := h.fetch_eq pos
  rw [hfetch] at hold
  have hview := Function.fetch_replace hold (inst.mapUses scan.source)
  refine ⟨⟨h.operands_eq, (Function.size_replace ..).trans h.size_eq, fun p => ?_, h.source, h.marked,
    h.kept, fun p hp d x hp' => ?_⟩, (hview pos).trans (if_pos rfl)⟩
  · by_cases hp : p = pos
    · refine ⟨scan.source, ?_, h.source⟩
      rw [hp, hfetch]
      exact (hview pos).trans (if_pos rfl)
    · obtain ⟨r, hother, hr⟩ := h.fetch_eq p
      exact ⟨r, ((hview p).trans (if_neg hp)).trans hother, hr⟩
  · have hne : p ≠ pos := by
      rintro rfl
      exact hpos hp
    exact h.copied p hp d x (((hview p).trans (if_neg hne)).symm.trans hp')

/-- The scan has come by one more position if what is copied there is marked. -/
theorem cons (h : scan.Renames s done)
    (hpos : ∀ d x, scan.state.func.fetch pos = some (.assign d x) → s.func.isTemp d = true →
      s.func.isTemp x = true → d ∈ scan.state.ctx.obsolete) :
  scan.Renames s (pos :: done)
  := { h with copied := List.forall_mem_cons.mpr ⟨hpos, h.copied⟩ }

/-- Visiting the instruction at a position takes the scan by this position. -/
theorem visit (h : scan.Renames s done) (hfetch : s.func.fetch pos = some inst) (hpos : pos ∉ done) :
  (scan.visit (pos, inst)).Renames s (pos :: done)
  := by
  obtain ⟨hreplace, hview⟩ := h.replace hfetch hpos
  unfold CopyScan.visit
  simp only []
  split
  · rename_i dest src hinst
    rw [hinst] at hreplace hview ⊢
    have hdef : s.func.DefinesAt pos dest := by
      refine ⟨inst, hfetch, ?_⟩
      rw [← Inst.defs_mapUses scan.source, hinst]
      exact List.mem_singleton.mpr rfl
    split
    · apply (hreplace.mark hdef).cons
      rintro d x hd - -
      cases hview.symm.trans hd
      exact (IdSet.mem_add ..).mpr (.inl rfl)
    · rename_i hcond
      apply hreplace.cons
      intro d x hd htemp htemp'
      cases hview.symm.trans hd
      rw [← hreplace.isTemp_eq] at htemp htemp'
      simpa [htemp, htemp', State.isObsolete_iff] using hcond
  · rename_i hinst
    apply hreplace.cons
    intro d x hd
    exact absurd (Option.some.inj (hview.symm.trans hd)) (hinst d x)

/-- Visiting instructions in their order takes the scan by all their positions. -/
theorem foldl (entries : List (Nat × Inst)) (hsorted : entries.Pairwise fun a b => a.1 < b.1)
    (hfetch : ∀ e ∈ entries, s.func.fetch e.1 = some e.2) (hnew : ∀ e ∈ entries, e.1 ∉ done)
    (h : scan.Renames s done) :
  (entries.foldl CopyScan.visit scan).Renames s ((entries.map (·.1)).reverse ++ done)
  := by
  induction entries generalizing scan done with
  | nil => exact h
  | cons e entries ih =>
    obtain ⟨hafter, hrest⟩ := List.pairwise_cons.mp hsorted
    obtain ⟨he, hfetch⟩ := List.forall_mem_cons.mp hfetch
    obtain ⟨hpos, hnew⟩ := List.forall_mem_cons.mp hnew
    rw [List.map_cons, List.reverse_cons, List.append_assoc, List.singleton_append]
    refine ih hrest hfetch (fun e' he' => ?_) (h.visit he hpos)
    exact List.not_mem_cons_of_ne_of_not_mem (Nat.ne_of_gt (hafter e' he')) (hnew e' he')

end CopyScan.Renames

namespace State

variable {s s' s₁ : State}

/-- Reading copies at their source takes the scan by all live positions. -/
theorem renames_forwardCopies (s : State) :
  ∃ copies, CopyScan.Renames s ⟨s.forwardCopies, copies⟩ (s.func.live.map (·.1))
  := by
  have hstart : CopyScan.Renames s { state := s } [] := by
    refine ⟨rfl, rfl, fun p => ⟨id, ?_, fun x hx => absurd rfl hx⟩, fun x hx => absurd rfl hx,
      fun x hx => .inl hx, fun x hx => hx, fun p hp => absurd hp List.not_mem_nil⟩
    have hid : Inst.mapUses id = id := funext fun inst => Inst.mapUses_of_fixed fun _ _ => rfl
    rw [hid, Option.map_id]
    rfl
  have hdone := hstart.foldl s.func.live s.func.pairwise_live (fun e he => Function.mem_live.mp he)
    fun _ _ => List.not_mem_nil
  refine ⟨(s.func.live.foldl CopyScan.visit { state := s }).copies, { hdone with copied := ?_ }⟩
  intro p hp
  exact hdone.copied p (List.mem_append_left _ (List.mem_reverse.mpr hp))

/-- Reading copies at their source makes no position heavier. -/
theorem lightens_forwardCopies (s : State) :
  s.func.Lightens Inst.isFork s.forwardCopies.func
  := by
  obtain ⟨copies, hrenames⟩ := s.renames_forwardCopies
  refine ⟨hrenames.size_eq, fun p => ?_⟩
  obtain ⟨r, hfetch, -⟩ := hrenames.fetch_eq p
  unfold Function.cost
  rw [hfetch]
  cases s.func.fetch p with
  | none => exact Nat.le_refl _
  | some inst =>
    simp only [Option.map_some, Inst.isFork_mapUses]
    exact Nat.le_refl _

/-- Reading copies at their source does not change where operands are defined. -/
theorem definesAt_forwardCopies {p : Nat} {d : OperandId} (h : s.func.DefinesAt p d) :
  s.forwardCopies.func.DefinesAt p d
  := by
  obtain ⟨copies, hrenames⟩ := s.renames_forwardCopies
  obtain ⟨inst, hinst, hdef⟩ := h
  obtain ⟨r, hfetch, -⟩ := hrenames.fetch_eq p
  rw [hinst] at hfetch
  exact ⟨inst.mapUses r, hfetch, by rwa [Inst.defs_mapUses]⟩

/-- If nothing is marked, nothing was copied and nothing is renamed. -/
theorem fetch_forwardCopies (h : s.forwardCopies.ctx.obsolete = []) (p : Nat) :
  s.forwardCopies.func.fetch p = s.func.fetch p
  := by
  obtain ⟨copies, hrenames⟩ := s.renames_forwardCopies
  obtain ⟨r, hfetch, hr⟩ := hrenames.fetch_eq p
  have hid : Inst.mapUses r = id := by
    refine funext fun inst => Inst.mapUses_of_fixed fun x _ => ?_
    by_contra hx
    have hmark := hr x hx
    rw [show CopyScan.state ⟨s.forwardCopies, copies⟩ = s.forwardCopies from rfl, h] at hmark
    cases hmark
  rw [hid, Option.map_id] at hfetch
  exact hfetch

/-! ### Rounds -/

/-- A round for dead temps finds intervals, marks dead operands and reads copies at their source.
It is the last one if nothing is marked then; otherwise it sweeps. -/
theorem tempRound_cases {step : ForInStep State} (h : s.tempRound = .ok step) :
  ∃ s₁, s.analyze Function.intervals = .ok s₁ ∧
    (s₁.markDead.forwardCopies.ctx.obsolete = [] ∧ step = .done s₁.markDead.forwardCopies ∨
      s₁.markDead.forwardCopies.ctx.obsolete ≠ [] ∧ step = .yield s₁.markDead.forwardCopies.sweep.compact)
  := by
  obtain ⟨s₁, hana, hstep⟩ := Attempt.bind_eq_ok h
  refine ⟨s₁, hana, ?_⟩
  cases hstep
  by_cases hempty : s₁.markDead.forwardCopies.ctx.obsolete = []
  · exact .inl ⟨hempty, if_pos (List.isEmpty_iff.mpr hempty)⟩
  · exact .inr ⟨hempty, if_neg fun h => hempty (List.isEmpty_iff.mp h)⟩

/-- A round for dead stores finds intervals from reads.  It is the last one if no store is dead;
otherwise it removes the dead stores and sweeps. -/
theorem storeRound_cases {step : ForInStep State} (h : s.storeRound = .ok step) :
  ∃ s₁, s.analyze Function.readIntervals = .ok s₁ ∧
    (s₁.func.unreadStores = [] ∧ step = .done s₁ ∨
      s₁.func.unreadStores ≠ [] ∧ step = .yield (s₁.func.unreadStores.foldl removeStore s₁).sweep.compact)
  := by
  obtain ⟨s₁, hana, hstep⟩ := Attempt.bind_eq_ok h
  refine ⟨s₁, hana, ?_⟩
  cases hstep
  by_cases hempty : s₁.func.unreadStores = []
  · exact .inl ⟨hempty, if_pos (List.isEmpty_iff.mpr hempty)⟩
  · exact .inr ⟨hempty, if_neg fun h => hempty (List.isEmpty_iff.mp h)⟩

/-- What the rounds for dead temps take away: the weight of the code, and marks from before. -/
def tempWeight (s : State) : Nat :=
  s.func.weight Inst.isFork + if s.ctx.obsolete = [] then 0 else 1

/-- What is marked in a round that starts without marks is defined. -/
theorem exists_definesAt_of_mark (hana : s.analyze Function.intervals = .ok s₁) (hempty : s.ctx.obsolete = [])
    {x : OperandId} (hx : x ∈ s₁.markDead.forwardCopies.ctx.obsolete) :
  ∃ p, s₁.markDead.forwardCopies.func.DefinesAt p x
  := by
  obtain ⟨hintervals, hctx⟩ := analyze_eq_ok hana
  have hsame := (Function.startsRight_intervals hintervals).same
  obtain ⟨copies, hrenames⟩ := s₁.markDead.renames_forwardCopies
  rcases hrenames.marked x hx with hmark | ⟨p, hp⟩
  · rcases mem_markAll.mp hmark with hdead | hold
    · obtain ⟨htemps, hdead⟩ := List.mem_filter.mp hdead
      have htemp := (List.mem_filter.mp htemps).2
      rw [Function.isTemp_congr (hsame.kind_eq x)] at htemp
      obtain ⟨p, inst, hfetch, hdef⟩ := Function.exists_definesAt_of_isDead hintervals htemp hdead
      refine ⟨p, definesAt_forwardCopies ⟨inst, ?_, hdef⟩⟩
      rw [func_markDead, hsame.fetch_eq]
      exact hfetch
    · rw [hctx, hempty] at hold
      cases hold
  · exact ⟨p, definesAt_forwardCopies hp⟩

/-- A round for dead temps that is not the last one takes weight off. -/
theorem tempWeight_lt {t : State} (h : s.tempRound = .ok (.yield t)) :
  t.tempWeight < s.tempWeight
  := by
  obtain ⟨s₁, hana, ⟨-, hstep⟩ | ⟨hmarks, hstep⟩⟩ := tempRound_cases h
  · cases hstep
  · cases hstep
    have hsame := (Function.startsRight_intervals (analyze_eq_ok hana).1).same
    have hcopies := (lightens_forwardCopies s₁.markDead).weight_le
    rw [func_markDead, Function.weight_congr hsame] at hcopies
    have hclear : s₁.markDead.forwardCopies.sweep.compact.ctx.obsolete = [] := rfl
    unfold tempWeight
    rw [if_pos hclear]
    by_cases hempty : s.ctx.obsolete = []
    · obtain ⟨x, hx⟩ := List.exists_mem_of_ne_nil _ hmarks
      obtain ⟨p, hp⟩ := exists_definesAt_of_mark hana hempty hx
      have := weight_sweep_lt hp hx
      omega
    · have hsweep := weight_sweep_le Inst.isFork (fun _ _ => rfl) s₁.markDead.forwardCopies
      rw [if_neg hempty]
      omega

/-- Removing stores leaves nothing at their positions. -/
theorem fetch_removeStores (entries : List (Nat × Inst)) (s : State) (p : Nat) :
  (entries.foldl removeStore s).func.fetch p = if p ∈ entries.map (·.1) then none else s.func.fetch p
  := by
  induction entries generalizing s with
  | nil => simp
  | cons e entries ih =>
    have hstep : (s.removeStore e).func.fetch p = if p = e.1 then none else s.func.fetch p := by
      unfold removeStore count
      rw [func_markAll]
      exact Function.fetch_remove e.1 p
    rw [List.foldl_cons, ih, hstep, List.map_cons]
    by_cases hmem : p ∈ entries.map (·.1)
    · rw [if_pos hmem, if_pos (List.mem_cons_of_mem _ hmem)]
    · simp only [hmem, if_false, List.mem_cons, or_false]

/-- Removing stores keeps the number of positions. -/
theorem size_removeStores (entries : List (Nat × Inst)) (s : State) :
  (entries.foldl removeStore s).func.size = s.func.size
  := by
  induction entries generalizing s with
  | nil => rfl
  | cons e entries ih =>
    rw [List.foldl_cons, ih]
    unfold removeStore count
    rw [func_markAll]
    rfl

/-- Removing stores makes no position heavier. -/
theorem lightens_removeStores (entries : List (Nat × Inst)) (s : State) (twice : Inst → Bool) :
  s.func.Lightens twice (entries.foldl removeStore s).func
  := by
  refine ⟨size_removeStores entries s, fun p => ?_⟩
  have hfetch := fetch_removeStores entries s p
  split at hfetch
  · rw [Function.cost_of_none twice hfetch]
    exact Nat.zero_le _
  · exact Nat.le_of_eq (Function.cost_congr hfetch)

/-- The number of instructions left gets smaller in the rounds for dead stores. -/
theorem weight_storeRound_lt {t : State} (h : s.storeRound = .ok (.yield t)) :
  t.func.weight (fun _ => false) < s.func.weight fun _ => false
  := by
  obtain ⟨s₁, hana, ⟨-, hstep⟩ | ⟨hdead, hstep⟩⟩ := storeRound_cases h
  · cases hstep
  · cases hstep
    have hsame := s.func.sameHints_readIntervals.same
    rw [(analyze_eq_ok hana).1] at hsame
    obtain ⟨e, he⟩ := List.exists_mem_of_ne_nil _ hdead
    have hlight := lightens_removeStores s₁.func.unreadStores s₁ fun _ => false
    have hfetch := Function.mem_live.mp (List.mem_filter.mp he).1
    have hcost : (s₁.func.unreadStores.foldl removeStore s₁).func.cost (fun _ => false) e.1
        < s₁.func.cost (fun _ => false) e.1 := by
      have hnone := fetch_removeStores s₁.func.unreadStores s₁ e.1
      rw [if_pos (List.mem_map_of_mem he)] at hnone
      rw [Function.cost_of_fetch _ hfetch, Function.cost_of_none _ hnone]
      exact Nat.one_pos
    calc
      _ ≤ (s₁.func.unreadStores.foldl removeStore s₁).func.weight fun _ => false :=
        weight_sweep_le _ (fun _ _ => rfl) _
      _ < s₁.func.weight fun _ => false := hlight.weight_lt hcost
      _ = s.func.weight fun _ => false := Function.weight_congr hsame

end State

/-! ### What is left -/

namespace Function

variable {f f' : Function}

/-- A change of the interval of an operand makes no difference once intervals are cleared. -/
theorem clearIntervals_modify (f : Function) (id : OperandId) {change : Operand → Operand}
    (h : ∀ o, (change o).clearInterval = o.clearInterval) :
  (f.modify id change).clearIntervals = f.clearIntervals
  := by
  have hoperands : (f.operands.modify id change).map Operand.clearInterval
      = f.operands.map Operand.clearInterval := by
    apply Array.ext_getElem?
    intro i
    rw [Array.getElem?_map, Array.getElem?_map, Array.getElem?_modify]
    split
    · cases f.operands[i]? with
      | none => rfl
      | some o => exact congrArg some (h o)
    · rfl
  unfold clearIntervals modify
  rw [hoperands]

/-- Changes of the intervals of operands make no difference once intervals are cleared. -/
theorem clearIntervals_modifyAll (f : Function) (ids : List OperandId) {change : Operand → Operand}
    (h : ∀ o, (change o).clearInterval = o.clearInterval) :
  (ids.foldl (fun f id => f.modify id change) f).clearIntervals = f.clearIntervals
  := by
  induction ids generalizing f with
  | nil => rfl
  | cons id ids ih => rw [List.foldl_cons, ih, clearIntervals_modify f id h]

/-- Visiting an instruction for variables makes no difference once intervals are cleared. -/
theorem clearIntervals_visitVars {g g' : Function} {pos : Nat} {inst : Inst}
    (h : g.visitVars (pos, inst) = .ok g') :
  g'.clearIntervals = g.clearIntervals
  := by
  obtain rfl | ⟨d, x, -, -, rfl⟩ | ⟨x, -, rfl⟩ | ⟨target, rfl⟩ := visitVars_cases h
  · rfl
  · exact clearIntervals_modify _ _ fun _ => rfl
  · exact clearIntervals_modify _ _ fun _ => rfl
  · exact clearIntervals_modifyAll _ _ fun _ => rfl

/-- Reads are found at the same places when they are looked for again. -/
theorem readIntervals_of_readIntervals (h : f.readIntervals = .ok f') :
  f'.readIntervals = .ok f'
  := by
  have hclear : f'.clearIntervals = f.clearIntervals := by
    refine readIntervals_induction (P := fun g => g.clearIntervals = f.clearIntervals) ?_ ?_ ?_ h
    · unfold clearIntervals
      rw [Array.map_map]
      rfl
    · intro g pos inst hg _
      have hread : ∀ o : Operand, (o.readAt pos).clearInterval = o.clearInterval := fun _ => rfl
      have hdefine : ∀ o : Operand, (o.definedAt pos).clearInterval = o.clearInterval := fun _ => rfl
      exact (clearIntervals_modifyAll _ _ hdefine).trans ((clearIntervals_modifyAll _ _ hread).trans hg)
    · exact fun g g' pos inst hg _ hvisit => (clearIntervals_visitVars hvisit).trans hg
  unfold readIntervals
  rw [hclear, live_congr (readIntervals_spec h).1.same]
  exact h

/-- The interval of a temp starts at its definition or before, in any code. -/
theorem liveFrom_intervals (h : f.intervals = .ok f') {p : Nat} {t : OperandId} (hdef : f.DefinesAt p t)
    (ht : f.isTemp t = true) (hlt : t < f.operands.size) :
  (f'.operand t).LiveFrom p
  := by
  obtain ⟨g, hread, hcover⟩ := Attempt.bind_eq_ok h
  cases hcover
  obtain ⟨i, hi, hdef⟩ := hdef
  apply ((coverWrites_spec g g.live).1.operand t).liveFrom
  exact ((readIntervals_spec hread).2 p i hi).2 t hdef ht hlt

/-- No temp is a copy of another, and those that are defined are read.  A temp that is loaded as if
it were a variable counts as read. -/
structure FreeOfDeadTemps (f : Function) : Prop where
  copies : ∀ p d x, f.fetch p = some (.assign d x) → ¬ (f.isTemp d = true ∧ f.isTemp x = true)
  used : ∀ t ∈ f.temps, ∀ p, f.DefinesAt p t → ∃ q, f.ReadsAt q t ∨ f.fetch q = some (.forceLoad t)

/-- The intervals are those that end at the last read, and those of stored variables end after the
stores. -/
structure FreeOfDeadStores (f : Function) : Prop where
  intervals : f.readIntervals = .ok f
  used : ∀ p x src, f.fetch p = some (.store x src) → f.isVar x = true →
    ∃ stop, (f.operand x).liveEnd = some stop ∧ p < stop

end Function

namespace State

variable {s s₁ t : State}

/-- In a round that marks nothing every temp that is defined is read. -/
theorem exists_reads_of_unmarked (hana : s.analyze Function.intervals = .ok s₁)
    (hmarks : s₁.markDead.ctx.obsolete = []) {x : OperandId} (hlt : x < s.func.operands.size)
    (htemp : s.func.isTemp x = true) {p : Nat} (hdef : s.func.DefinesAt p x) :
  ∃ q, s.func.ReadsAt q x ∨ s.func.fetch q = some (.forceLoad x)
  := by
  have hintervals := (analyze_eq_ok hana).1
  have hsame := (Function.startsRight_intervals hintervals).same
  have hdead : ¬ (s₁.func.operand x).isDead = true := by
    intro hdead
    have hmem : x ∈ s₁.func.temps := by
      refine List.mem_filter.mpr ⟨List.mem_range.mpr (hsame.size_eq ▸ hlt), ?_⟩
      rwa [Function.isTemp_congr (hsame.kind_eq x)]
    have hmark : x ∈ s₁.markDead.ctx.obsolete := mem_markAll.mpr (.inl (List.mem_filter.mpr ⟨hmem, hdead⟩))
    rw [hmarks] at hmark
    cases hmark
  obtain ⟨start, hstart, -⟩ := Function.liveFrom_intervals hintervals hdef htemp hlt
  cases hstop : (s₁.func.operand x).liveEnd with
  | none => exact absurd (by simp [Operand.isDead, hstart, hstop]) hdead
  | some stop =>
    by_cases hload : ∃ q, s.func.fetch q = some (.forceLoad x)
    · obtain ⟨q, hq⟩ := hload
      exact ⟨q, .inr hq⟩
    · exact ⟨stop, .inl (Function.readsAt_liveEnd hintervals htemp (not_exists.mp hload) hstop)⟩

/-- After the last round for dead temps the code has none. -/
theorem freeOfDeadTemps_of_done (h : s.tempRound = .ok (.done t)) :
  t.func.FreeOfDeadTemps
  := by
  obtain ⟨s₁, hana, ⟨hmarks, hstep⟩ | ⟨-, hstep⟩⟩ := tempRound_cases h
  · cases hstep
    obtain ⟨copies, hrenames⟩ := s₁.markDead.renames_forwardCopies
    have hsame := (Function.startsRight_intervals (analyze_eq_ok hana).1).same
    have hunmarked : ∀ x, x ∉ s₁.markDead.forwardCopies.ctx.obsolete := by
      rw [hmarks]
      exact fun _ => List.not_mem_nil
    have hfetch : ∀ p, s₁.markDead.forwardCopies.func.fetch p = s.func.fetch p := by
      intro p
      rw [fetch_forwardCopies hmarks, func_markDead, hsame.fetch_eq]
    constructor
    · rintro p d x hp ⟨hd, hx⟩
      rw [hrenames.isTemp_eq] at hd hx
      have hlive := Function.mem_live.mpr ((fetch_forwardCopies hmarks p).symm.trans hp)
      exact hunmarked d (hrenames.copied p (List.mem_map_of_mem hlive) d x hp hd hx)
    · rintro x hx p ⟨i, hi, hdef⟩
      obtain ⟨hlt, htemp⟩ := List.mem_filter.mp hx
      rw [hrenames.isTemp_eq, func_markDead, Function.isTemp_congr (hsame.kind_eq x)] at htemp
      have hsize : s₁.markDead.forwardCopies.func.operands = s₁.func.operands :=
        hrenames.operands_eq.trans (congrArg _ s₁.func_markDead)
      rw [Function.operandIds, hsize, hsame.size_eq, List.mem_range] at hlt
      have hnone : s₁.markDead.ctx.obsolete = [] :=
        List.eq_nil_iff_forall_not_mem.mpr fun x hx => hunmarked x (hrenames.kept hx)
      rw [hfetch] at hi
      obtain ⟨q, ⟨j, hj, huse⟩ | hload⟩ := exists_reads_of_unmarked hana hnone hlt htemp ⟨i, hi, hdef⟩
      · exact ⟨q, .inl ⟨j, (hfetch q).trans hj, huse⟩⟩
      · exact ⟨q, .inr ((hfetch q).trans hload)⟩
  · cases hstep

/-- After the last round for dead stores the code has none. -/
theorem freeOfDeadStores_of_done (h : s.storeRound = .ok (.done t)) :
  t.func.FreeOfDeadStores
  := by
  obtain ⟨s₁, hana, ⟨hdead, hstep⟩ | ⟨-, hstep⟩⟩ := storeRound_cases h
  · cases hstep
    have hread := (analyze_eq_ok hana).1
    obtain ⟨hvisited, -⟩ := Function.readIntervals_spec hread
    refine ⟨Function.readIntervals_of_readIntervals hread, fun p x src hp hx => ?_⟩
    have hlive := Function.mem_live.mpr hp
    obtain ⟨-, stop, hstop, -⟩ := hvisited.write p _ x (Function.live_congr hvisited.same ▸ hlive)
      (.inr ⟨src, rfl⟩) (by rwa [← Function.isVar_congr (hvisited.same.kind_eq x)])
    refine ⟨stop, hstop, ?_⟩
    by_contra hle
    have hmem : (p, Inst.store x src) ∈ t.func.unreadStores := by
      refine List.mem_filter.mpr ⟨hlive, ?_⟩
      simp only [Function.isDeadStore, hx, hstop, Bool.true_and, decide_eq_true_eq]
      omega
    rw [hdead] at hmem
    cases hmem
  · cases hstep

/-- The pass for dead temps comes to what its loop comes to without a bound. -/
theorem loops_deadTemps (s : State) :
  Attempt.Loops tempRound s (deadTemps s)
  := by
  unfold deadTemps
  rw [removeTemps_eq_repeatRound]
  apply Attempt.loops_repeatRound tempWeight fun _ _ => tempWeight_lt
  have := s.func.weight_le Inst.isFork
  unfold tempWeight
  split <;> omega

/-- The pass for dead stores comes to what its loop comes to without a bound. -/
theorem loops_deadStores (s : State) :
  Attempt.Loops storeRound s (deadStores s)
  := by
  unfold deadStores
  rw [removeStores_eq_repeatRound]
  apply Attempt.loops_repeatRound (fun s => s.func.weight fun _ => false) fun _ _ => weight_storeRound_lt
  have hlength := s.func.length_live_le
  have hcount : (s.func.live.map (·.2)).countP (fun _ => false) = 0 := congrFun List.countP_false _
  rw [Function.weight_eq, hcount, List.length_map]
  omega

end State

/-- The elimination of dead temps and that of dead stores end, in any code and from any marks: what
they give is what their rounds come to without a bound.  Where they succeed, nothing is left to
eliminate. -/
theorem elimination_ends (s : State) :
  Attempt.Loops State.tempRound s (deadTemps s) ∧
    (∀ t, deadTemps s = .ok t → t.func.FreeOfDeadTemps) ∧
    Attempt.Loops State.storeRound s (deadStores s) ∧
    ∀ t, deadStores s = .ok t → t.func.FreeOfDeadStores
  := by
  refine ⟨s.loops_deadTemps, fun t ht => ?_, s.loops_deadStores, fun t ht => ?_⟩
  · obtain ⟨u, hu⟩ := s.loops_deadTemps.exists_last ht
    exact State.freeOfDeadTemps_of_done hu
  · obtain ⟨u, hu⟩ := s.loops_deadStores.exists_last ht
    exact State.freeOfDeadStores_of_done hu

/-- Of two copies one is stored into a variable that nothing reads. -/
def storedCopy : Function where
  name := "f"
  operands := #[.ofKind (.temp 0), .ofKind (.temp 1), .ofKind (.temp 2), .ofKind (.const (.integer 1)),
    .ofKind (.var 0)]
  code := #[.assign 0 3, .fork 0 1 2, .store 4 1, .ret 2]

/-- Once the store is gone the fork is an assignment, and then the other copy goes as well. -/
theorem elimination_ends_storedCopy :
  ∃ s t, deadStores ⟨storedCopy, { options := {} }⟩ = .ok s ∧ s.func.FreeOfDeadStores ∧
    s.func.live = [(0, .assign 0 3), (1, .assign 2 0), (2, .ret 2)] ∧
    deadTemps s = .ok t ∧ t.func.FreeOfDeadTemps ∧ t.func.live = [(0, .assign 0 3), (1, .ret 0)]
  := by
  have hstores : (deadStores ⟨storedCopy, { options := {} }⟩).isOk = true := by decide +kernel
  have htemps : ((deadStores ⟨storedCopy, { options := {} }⟩).toOption.any fun s => (deadTemps s).isOk) = true := by
    decide +kernel
  have hcode : ((deadStores ⟨storedCopy, { options := {} }⟩).toOption.any fun s =>
      decide (s.func.live = [(0, .assign 0 3), (1, .assign 2 0), (2, .ret 2)]) &&
      (deadTemps s).toOption.any fun t => decide (t.func.live = [(0, .assign 0 3), (1, .ret 0)])) = true := by
    decide +kernel
  obtain ⟨s, hs⟩ := exists_eq_ok hstores
  rw [hs] at htemps hcode
  obtain ⟨t, ht⟩ := exists_eq_ok htemps
  simp only [ht, Except.toOption, Option.any_some, Bool.and_eq_true, decide_eq_true_eq] at hcode
  obtain ⟨-, -, -, hfree⟩ := elimination_ends ⟨storedCopy, { options := {} }⟩
  obtain ⟨-, hfree', -⟩ := elimination_ends s
  exact ⟨s, t, hs, hfree s hs, hcode.1, ht, hfree' t ht, hcode.2⟩

/-- A temp is filled, and then loaded as if it were a variable. -/
def loadedTemp : Function where
  name := "f"
  operands := #[.ofKind (.temp 0), .ofKind (.const (.integer 1))]
  code := #[.assign 0 1, .forceLoad 0]

/-- The load gives the interval of the temp an end, so the temp stays although nothing reads it. -/
theorem unread_deadTemps_loadedTemp :
  ∃ t, deadTemps ⟨loadedTemp, { options := {} }⟩ = .ok t ∧ 0 ∈ t.func.temps ∧ t.func.DefinesAt 0 0 ∧
    t.func.Unread 0
  := by
  have hok : (deadTemps ⟨loadedTemp, { options := {} }⟩).isOk = true := by decide +kernel
  have hcode : ((deadTemps ⟨loadedTemp, { options := {} }⟩).toOption.any fun t =>
      t.func.temps.contains 0 && decide (t.func.live = [(0, .assign 0 1), (1, .forceLoad 0)])) = true := by
    decide +kernel
  obtain ⟨t, ht⟩ := exists_eq_ok hok
  simp only [ht, Except.toOption, Option.any_some, Bool.and_eq_true, decide_eq_true_eq,
    List.contains_iff_mem] at hcode
  obtain ⟨htemps, hlive⟩ := hcode
  refine ⟨t, ht, htemps, ⟨.assign 0 1, ?_, List.mem_singleton.mpr rfl⟩, ?_⟩
  · rw [← Function.mem_live, hlive]
    exact List.mem_cons_self
  · rintro p ⟨i, hi, huse⟩
    rw [← Function.mem_live, hlive] at hi
    simp only [List.mem_cons, Prod.mk.injEq, List.not_mem_nil, or_false] at hi
    rcases hi with ⟨-, rfl⟩ | ⟨-, rfl⟩
    · exact absurd huse (by decide)
    · exact absurd huse (by decide)

end IR

end StackCompiler
