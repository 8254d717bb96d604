import StackCompiler.Proofs.Passes.Wiring

/-!
# Variables stay live along paths

A path of control leads from a position to a read of a variable.  Where the ranges of jumps
back are nested or disjoint, a path that leads backwards stays in the range of one loop, so
one scan that widens intervals at jumps back covers every position of every such path.
-/

namespace StackCompiler.IR

/-- Whether control may go on from an instruction to the next one. -/
def Inst.goesOn : Inst → Bool
  | ret _ | jump _ | shortJump _ => false
  | _ => true

namespace Function

variable {f f' : Function} {p q r : Nat}

/-- Control may go from one position to another; removed positions are passed over. -/
inductive Flows (f : Function) : Nat → Nat → Prop where
  | next {p : Nat} {i : Inst} (fetch : f.fetch p = some i) (goesOn : i.goesOn = true) : Flows f p (p + 1)
  | skip {p : Nat} (lt : p < f.size) (removed : f.fetch p = none) : Flows f p (p + 1)
  | jump {p q : Nat} {i : Inst} {l : Label} (fetch : f.fetch p = some i) (target : i.target? = some l)
      (label : f.labels.at? l = some q) : Flows f p q

/-- A path of control of at least one step. -/
abbrev Path (f : Function) : Nat → Nat → Prop := Relation.TransGen f.Flows

/-- The ranges of the jumps back are pairwise nested or disjoint. -/
def LoopsNest (f : Function) : Prop :=
  ∀ t j t' j', f.IsLoop t j → f.IsLoop t' j' → Nested t j t' j'

/-- The ranges of the jumps back, from labels to jumps. -/
def loops (f : Function) : List (Nat × Nat) :=
  f.live.filterMap fun (pos, inst) => do
    let l ← inst.target?
    let target ← f.labels.at? l
    if target < pos then some (target, pos) else none

/-- The loops that are listed are the ranges of the jumps back. -/
theorem mem_loops {t j : Nat} :
  (t, j) ∈ f.loops ↔ f.IsLoop t j
  := by
  unfold loops IsLoop
  simp only [List.mem_filterMap, Option.bind_eq_bind, Option.bind_eq_some_iff]
  constructor
  · rintro ⟨⟨pos, inst⟩, hmem, l, hl, target, htarget, h⟩
    split at h
    · cases h
      exact ⟨‹_›, inst, l, mem_live.mp hmem, hl, htarget⟩
    · cases h
  · rintro ⟨hlt, inst, l, hfetch, hl, htarget⟩
    exact ⟨(j, inst), mem_live.mpr hfetch, l, hl, t, htarget, if_pos hlt⟩

instance (f : Function) : Decidable f.LoopsNest :=
  decidable_of_iff (∀ a ∈ f.loops, ∀ b ∈ f.loops, Nested a.1 a.2 b.1 b.2)
    ⟨fun h t j t' j' ha hb => h (t, j) (mem_loops.mpr ha) (t', j') (mem_loops.mpr hb),
      fun h a ha b hb => h a.1 a.2 b.1 b.2 (mem_loops.mp ha) (mem_loops.mp hb)⟩

/-! ### Paths that lead backwards -/

/-- Control goes backwards by a jump. -/
theorem Flows.isLoop (h : f.Flows p q) (wf : f.WellFormed) (hle : q ≤ p) :
  f.IsLoop q p
  := by
  cases h with
  | next => omega
  | skip => omega
  | @jump _ i l hfetch hl hlabel =>
    refine ⟨Nat.lt_of_le_of_ne hle ?_, i, l, hfetch, hl, hlabel⟩
    rintro rfl
    rw [(wf.labels l q).mp hlabel] at hfetch
    cases hfetch
    cases hl

/-- A way from a position to another that goes back over two overlapping loops, one after the
other: first by the jump of the later one, and then by that of the earlier one. -/
structure Crosses (f : Function) (p r t j t' j' : Nat) : Prop where
  earlier : f.IsLoop t j
  later : f.IsLoop t' j'
  overlap : t < t' ∧ t' ≤ j ∧ j < j'
  toLater : Relation.ReflTransGen f.Flows p j'
  toEarlier : Relation.ReflTransGen f.Flows t' j
  toEnd : Relation.ReflTransGen f.Flows t r

theorem Crosses.head {t j t' j' : Nat} (h : f.Crosses q r t j t' j') (hstep : f.Flows p q) :
  f.Crosses p r t j t' j'
  := { h with toLater := .head hstep h.toLater }

/-- Loops that are crossed are not nested. -/
theorem Crosses.not_loopsNest {t j t' j' : Nat} (h : f.Crosses p r t j t' j') :
  ¬ f.LoopsNest
  := by
  intro hnest
  have hoverlap := h.overlap
  rcases hnest t j t' j' h.earlier h.later with ⟨-, h₁⟩ | ⟨h₂, -⟩ | h₃ | h₄ <;> omega

/-- A path that leads backwards stays in the range of a loop, or goes back over two that
overlap. -/
theorem exists_isLoop_or_crosses (wf : f.WellFormed) (h : f.Path p r) (hle : r ≤ p) :
  (∃ t j, f.IsLoop t j ∧ t ≤ r ∧ p ≤ j ∧ Relation.ReflTransGen f.Flows p j ∧
      Relation.ReflTransGen f.Flows t r) ∨
    ∃ t j t' j', f.Crosses p r t j t' j'
  := by
  induction h using Relation.TransGen.head_induction_on with
  | single hstep => exact .inl ⟨r, _, hstep.isLoop wf hle, Nat.le_refl _, Nat.le_refl _, .refl, .refl⟩
  | @head p q hstep hrest ih =>
    rcases Nat.lt_or_ge r q with hrq | hqr
    · rcases ih (Nat.le_of_lt hrq) with ⟨t, j, hloop, htr, hqj, hto, hend⟩ | ⟨t, j, t', j', hcross⟩
      · rcases Nat.lt_or_ge j p with hjp | hpj
        · -- The rest of the path stays in a loop that ends before the jump: the two overlap.
          have hback := hstep.isLoop wf (by omega)
          exact .inr ⟨t, j, q, p, hloop, hback, ⟨by omega, hqj, hjp⟩, .refl, hto, hend⟩
        · exact .inl ⟨t, j, hloop, htr, hpj, .head hstep hto, hend⟩
      · exact .inr ⟨t, j, t', j', hcross.head hstep⟩
    · exact .inl ⟨q, p, hstep.isLoop wf (by omega), hqr, Nat.le_refl _, .refl, hrest.to_reflTransGen⟩

/-- A path that leads backwards stays in the range of a loop, where loops nest. -/
theorem exists_isLoop_of_path (wf : f.WellFormed) (hnest : f.LoopsNest) (h : f.Path p r) (hle : r ≤ p) :
  ∃ t j, f.IsLoop t j ∧ t ≤ r ∧ p ≤ j
  := by
  rcases exists_isLoop_or_crosses wf h hle with ⟨t, j, hloop, htr, hpj, -⟩ | ⟨t, j, t', j', hcross⟩
  · exact ⟨t, j, hloop, htr, hpj⟩
  · exact absurd hnest hcross.not_loopsNest

/-! ### Intervals -/

/-- The interval of a variable covers the paths to its reads: it goes on past every position
of such a path that is not itself a jump back. -/
theorem Covers.liveTo_of_path (h : f.Covers f') (wf : f.WellFormed) (hnest : f.LoopsNest)
    {x : OperandId} (hx : f.isVar x = true) (hload : f.LoadsAt r x) (hpath : f.Path p r) :
  ∃ stop, (f'.operand x).liveEnd = some stop ∧ p ≤ stop ∧ ((∀ t, ¬ f.IsLoop t p) → p < stop)
  := by
  rcases Nat.lt_or_ge p r with hlt | hge
  · obtain ⟨d, hd⟩ := hload
    obtain ⟨stop, hstop, hle⟩ := (h.visited.load r d x (mem_live.mpr hd) hx).2
    exact ⟨stop, hstop, by omega, fun _ => by omega⟩
  · obtain ⟨t, j, hloop, htr, hpj⟩ := exists_isLoop_of_path wf hnest hpath hge
    obtain ⟨hlt, i, l, hi, hl, hlabel⟩ := id hloop
    obtain ⟨stop, hstop, hle⟩ := h.visited.loop t j i l (mem_live.mpr hi) hl hlabel hlt r x hload hx
      htr (Nat.le_trans hge hpj)
    refine ⟨stop, hstop, by omega, fun hnot => ?_⟩
    have hne : p ≠ j := by
      rintro rfl
      exact hnot t hloop
    omega

/-- The analysis of variables goes on past an instruction that jumps to a label of the table. -/
theorem exists_visitVars {pos : Nat} {inst : Inst}
    (h : ∀ l, inst.target? = some l → ∃ q, f.labels.at? l = some q) :
  ∃ g, f.visitVars (pos, inst) = .ok g
  := by
  cases inst with
  | jump l | shortJump l =>
    obtain ⟨q, hq⟩ := h l rfl
    exact ⟨_, by simp only [visitVars, labelPosition, hq, Attempt.orStop]; rfl⟩
  | condJump cond l =>
    obtain ⟨q, hq⟩ := h l rfl
    exact ⟨_, by simp only [visitVars, labelPosition, hq, Attempt.orStop]; rfl⟩
  | _ => exact ⟨_, rfl⟩

/-- Intervals from reads are found in code whose jumps have labels. -/
theorem Wired.exists_readIntervals (hw : f.Wired) (wf : f.WellFormed) :
  ∃ f', f.readIntervals = .ok f'
  := by
  have hsame := f.sameCode_clearIntervals.trans (visitAllTemps_spec f.clearIntervals f.live).1.same
  have hvisit : ∀ g : Function, g.labels = f.labels → ∀ e ∈ f.live,
      ∃ g', g.visitVars e = .ok g' ∧ g'.labels = f.labels := by
    intro g hg e he
    obtain ⟨g', hg'⟩ : ∃ g', g.visitVars e = .ok g' := by
      apply exists_visitVars
      intro l hl
      obtain ⟨q, hq⟩ := hw.target e.1 e.2 l (mem_live.mp he) hl
      rw [hg]
      exact ⟨q, (wf.labels l q).mpr hq⟩
    have hwidens := g.widens_visitVars e
    rw [hg'] at hwidens
    exact ⟨g', hg', hwidens.same.labels_eq.trans hg⟩
  obtain ⟨f', hf', -⟩ := Attempt.exists_foldlM _ visitVars f.live hsame.labels_eq hvisit
  exact ⟨f', hf'⟩

/-- Intervals are found in code whose jumps have labels. -/
theorem Wired.exists_intervals (hw : f.Wired) (wf : f.WellFormed) :
  ∃ f', f.intervals = .ok f'
  := by
  obtain ⟨g, hg⟩ := hw.exists_readIntervals wf
  refine ⟨g.live.foldl coverWrite g, ?_⟩
  unfold intervals
  rw [hg]
  rfl

end Function

/-- After any calls of passes on lowered code whose loops are nested or disjoint, the analysis
of reads succeeds, and from every position with a path to a read of a variable the interval of
the variable goes on, past the position unless a jump back stands there. -/
theorem liveEnd_of_path {f : Bytecode.Function} {g : Function} (hlower : lower f = .ok g)
    {ctx : Context} (hctx : ctx.obsolete = []) (passes : List PassName)
    (hnest : (State.callAll ⟨g, ctx⟩ passes).func.LoopsNest) :
  let h := (State.callAll ⟨g, ctx⟩ passes).func
  ∃ h', h.readIntervals = .ok h' ∧ ∀ x p r, h.isVar x = true → h.LoadsAt r x → h.Path p r →
    ∃ stop, (h'.operand x).liveEnd = some stop ∧ p ≤ stop ∧ ((∀ t, ¬ h.IsLoop t p) → p < stop)
  := by
  have horderly := State.orderly_callAll (State.orderly_lower hlower hctx) passes
  have wf := horderly.obsolete.wellFormed
  obtain ⟨h', hread⟩ := horderly.wired.exists_readIntervals wf
  refine ⟨h', hread, fun x p r hx hload hpath => ?_⟩
  exact (Function.covers_readIntervals wf hread).liveTo_of_path wf hnest hx hload hpath

/-- A loop in a loop: the inner one reads one variable, the outer one another. -/
def twoLoops : Bytecode.Function where
  constants := [.none]
  parameterCount := 2
  localVars := ["a", "b"]
  instructions := [
    ⟨.label, some 0⟩, ⟨.label, some 1⟩, ⟨.loadLocal, some 0⟩, ⟨.branch, some 1⟩,
    ⟨.loadLocal, some 1⟩, ⟨.branch, some 0⟩, ⟨.loadConst, some 0⟩, ⟨.ret, none⟩]

/-- The variable of the inner loop is live until the outer loop goes back. -/
theorem liveEnd_of_path_twoLoops :
  ∃ g, lower twoLoops = .ok g ∧
    let h := (State.callAll ⟨g, { options := {} }⟩ [.loadVars, .deadTemps]).func
    h.LoopsNest ∧ h.isVar 0 = true ∧ h.LoadsAt 4 0 ∧ h.Path 8 4 ∧
      ∃ h' stop, h.readIntervals = .ok h' ∧ (h'.operand 0).liveEnd = some stop ∧ 8 < stop
  := by
  have hok : (lower twoLoops).isOk = true := by decide +kernel
  obtain ⟨g, hg⟩ := exists_eq_ok hok
  have hcode : (match lower twoLoops with
      | .error _ => false
      | .ok g =>
        let h := (State.callAll ⟨g, { options := {} }⟩ [.loadVars, .deadTemps]).func
        decide h.LoopsNest && h.isVar 0 && h.labels.at? 0 == some 2 && h.fetch 2 == some (.label 0) &&
          h.fetch 3 == some (.label 1) && h.fetch 4 == some (.assign 1 0) &&
          h.fetch 8 == some (.assertion .bool 3) && h.fetch 9 == some (.condJump 3 0)) = true := by
    decide +kernel
  rw [hg] at hcode
  simp only [Bool.and_eq_true, decide_eq_true_eq, beq_iff_eq] at hcode
  obtain ⟨⟨⟨⟨⟨⟨⟨hnest, hx⟩, hlabel⟩, h₂⟩, h₃⟩, h₄⟩, h₈⟩, h₉⟩ := hcode
  have hpath : (State.callAll ⟨g, { options := {} }⟩ [.loadVars, .deadTemps]).func.Path 8 4 :=
    .head (.next h₈ rfl) (.head (.jump h₉ rfl hlabel) (.head (.next h₂ rfl) (.single (.next h₃ rfl))))
  obtain ⟨h', hread, hlive⟩ := liveEnd_of_path hg rfl [.loadVars, .deadTemps] hnest
  obtain ⟨stop, hstop, -, hlt⟩ := hlive 0 8 4 hx ⟨1, h₄⟩ hpath
  refine ⟨g, hg, hnest, hx, ⟨1, h₄⟩, hpath, h', stop, hread, hstop, hlt ?_⟩
  rintro t ⟨-, i, l, hi, hl, -⟩
  rw [h₈] at hi
  cases hi
  cases hl

end StackCompiler.IR
