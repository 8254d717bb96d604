import Mathlib.Data.List.Chain
import StackCompiler.Proofs.Passes.Loads
import StackCompiler.Proofs.Passes.Schedule

/-!
# Variables are filled before they are read

In the code that the optimizer leaves, a path from the first instruction to a read of a variable
passes an entry load of the variable or a store to it on the way.  The entry loads stand before
every label, jump and store, one for each variable.

What fills a variable first stands in the straight code that opens the function.  A path cannot go
around it: from a position in that code control goes to the next position only.
-/

namespace StackCompiler

namespace IR

/-! ### The loads of a function -/

/-- The variables that need an entry load are listed in ascending order. -/
theorem EntryScan.pairwise_needed (f : Function) (insts : List Inst) {scan : EntryScan}
    (h : scan.needed.Pairwise (· < ·)) :
  (insts.foldl (EntryScan.visit f) scan).needed.Pairwise (· < ·)
  := by
  induction insts generalizing scan with
  | nil => exact h
  | cons inst insts ih =>
    apply ih
    cases inst with
    | assign d x =>
      simp only [visit]
      split
      · exact IdSet.pairwise_add h x
      · exact h
    | store x s =>
      simp only [visit]
      split <;> exact h
    | _ => exact h

namespace Function

variable {f : Function} {x : OperandId} {a p q r : Nat}

theorem nodup_entryLoads (f : Function) :
  f.entryLoads.Nodup
  := by
  have hempty : ({} : EntryScan).needed.Pairwise (· < ·) := .nil
  have hneeded := EntryScan.pairwise_needed f (f.live.map (·.2)) hempty
  exact (hneeded.imp fun h => Nat.ne_of_lt h).filter _

/-- Code that fills variables before it reads them, with entry loads at the top, one for each
variable. -/
structure Primed (f : Function) : Prop where
  wellFormed : f.WellFormed
  opened : f.Opened
  loadsFirst : f.LoadsFirst
  loadsOnce : f.LoadsOnce

/-- That variables are filled before they are read is kept by the optimizer. -/
theorem kept_primed :
  Kept Primed
  := by
  constructor
  · rintro f f' ⟨wf, hopened, hfirst, honce⟩ hedit
    exact ⟨Edits.wellFormed (.single hedit) wf, hedit.opened wf hopened, hedit.loadsFirst wf hfirst,
      hedit.loadsOnce wf honce⟩
  · rintro f pos l ⟨wf, hopened, hfirst, honce⟩ hfetch
    have hview := fetch_replace hfetch (.shortJump l)
    exact ⟨wellFormed_shortened hfetch wf, hopened.shortened hfetch, hfirst.of_replaced hfetch hview rfl,
      honce.of_replaced hview rfl⟩

/-- Lowered code is primed once its entry loads are in. -/
theorem primed_withLoads {f : Bytecode.Function} {g : Function} (hlower : lower f = .ok g) :
  (g.withLoads g.entryLoads).Primed
  := by
  have hpending := (Lowering.sound_lower hlower).1
  obtain ⟨-, hload⟩ := Lowering.fresh_lower hlower
  constructor
  · apply wellFormed_withLoads (Lowering.wellFormed_lower hlower) hpending
    exact fun _ => isVar_of_mem_entryLoads
  · exact opened_withLoads hpending hload
  · exact loadsFirst_withLoads hpending hload _
  · exact loadsOnce_withLoads hpending hload g.nodup_entryLoads

/-- The optimizer leaves primed code. -/
theorem primed_optimize {f : Bytecode.Function} {g : Function} (hlower : lower f = .ok g) {o : Options}
    {t : State} (hoptimize : optimize g o = .ok t) :
  t.func.Primed
  := by
  obtain ⟨s, hrun, hrest⟩ := Attempt.bind_eq_ok hoptimize
  obtain ⟨s', hanalyze, hcount⟩ := Attempt.bind_eq_ok hrest
  cases hcount
  have hs : s.func.Primed :=
    kept_primed.runPasses_of_loads (State.settled_lower hlower rfl) (primed_withLoads hlower) hrun
  have hsettled := (State.orderly_runPasses hlower hrun).toSettled
  -- The intervals are one more thing that is found out about operands.
  have hreach := State.reaches_analyze hsettled s.func.sameHints_intervals
  rw [hanalyze] at hreach
  exact kept_primed.edits hs hreach.edits

/-! ### Paths -/

/-- A control-flow path, as the list of the positions that it passes. -/
structure Route (f : Function) (path : List Nat) (p r : Nat) : Prop where
  flows : path.IsChain f.Flows
  head : path.head? = some p
  last : path.getLast? = some r

/-- Control goes on to the next position in code without labels and jumps. -/
theorem Flows.eq_succ (h : f.Flows p q) (hplain : ∀ i, f.fetch p = some i → i.IsPlain) :
  q = p + 1
  := by
  cases h with
  | next | skip => rfl
  | jump hfetch htarget =>
    rw [(hplain _ hfetch).1] at htarget
    cases htarget

/-- A path that starts before what fills a variable first, and ends after it, passes it. -/
theorem OpensAt.mem_path {path : List Nat} (hopen : f.OpensAt q x) (hflows : (a :: path).IsChain f.Flows)
    (hlast : (a :: path).getLast? = some r) (ha : a ≤ q) (hr : q < r) :
  q ∈ (a :: path).dropLast
  := by
  induction path generalizing a with
  | nil =>
    obtain rfl : a = r := Option.some.inj hlast
    omega
  | cons b path ih =>
    obtain ⟨hstep, hrest⟩ := List.isChain_cons_cons.mp hflows
    rw [List.dropLast_cons_cons]
    by_cases haq : a = q
    · rw [haq]
      exact List.mem_cons_self
    · have hb : b = a + 1 := hstep.eq_succ fun i hi => hopen.first a i ha hi
      rw [List.getLast?_cons_cons] at hlast
      exact List.mem_cons_of_mem _ (ih hrest hlast (by omega))

/-- A position at which a variable is loaded or stored to. -/
def FillsAt (f : Function) (q : Nat) (x : OperandId) : Prop :=
  f.fetch q = some (.forceLoad x) ∨ ∃ s, f.fetch q = some (.store x s)

/-- A path from the first instruction to a read of a variable passes what fills the variable. -/
theorem Opened.exists_fillsAt (hopened : f.Opened) {path : List Nat} (hroute : f.Route path 0 r)
    (hload : f.LoadsAt r x) (hx : f.isVar x = true) :
  ∃ q ∈ path.dropLast, f.FillsAt q x
  := by
  obtain ⟨q, hq, hopen⟩ := hopened r x hload hx
  obtain ⟨hflows, hhead, hlast⟩ := hroute
  obtain ⟨path, rfl⟩ := List.head?_eq_some_iff.mp hhead
  exact ⟨q, hopen.mem_path hflows hlast (Nat.zero_le q) hq, hopen.fills⟩

end Function

/-- What the optimizer leaves fills every variable before it reads it on any path from the first
instruction, has its entry loads before every label, jump and store, and one for a variable. -/
theorem initialized_optimize {f : Bytecode.Function} {g : Function} (hlower : lower f = .ok g)
    {o : Options} {t : State} (hoptimize : optimize g o = .ok t) :
  (∀ path r x, t.func.Route path 0 r → t.func.LoadsAt r x → t.func.isVar x = true →
      ∃ q ∈ path.dropLast, t.func.FillsAt q x) ∧
    (∀ q x p i, t.func.fetch q = some (.forceLoad x) → t.func.fetch p = some i →
      i.label?.isSome = true ∨ i.target?.isSome = true ∨ (∃ y s, i = .store y s) → q < p) ∧
    ∀ p q x, t.func.fetch p = some (.forceLoad x) → t.func.fetch q = some (.forceLoad x) → p = q
  := by
  have hprimed := Function.primed_optimize hlower hoptimize
  refine ⟨fun path r x => hprimed.opened.exists_fillsAt, ?_, hprimed.loadsOnce⟩
  intro q x p i hq hp hi
  have hother : i.isEntryLoad = false := by
    cases i with
    | forceLoad y => simp [Inst.label?, Inst.target?] at hi
    | _ => rfl
  rcases Nat.lt_trichotomy q p with hlt | rfl | hgt
  · exact hlt
  · rw [hq] at hp
    cases hp
    cases hother
  · rw [hprimed.loadsFirst p q i _ hgt hp hq rfl] at hother
    cases hother

/-- The parameter is loaded before the loop, so the way out of the loop passes the load before it
reads the parameter. -/
theorem initialized_optimize_countdown :
  ∃ g t, lower .countdown = .ok g ∧ optimize g {} = .ok t ∧
    t.func.Route [0, 1, 2, 3, 4, 5, 12, 13] 0 13 ∧ t.func.LoadsAt 13 0 ∧ t.func.isVar 0 = true ∧
    (∃ q ∈ [0, 1, 2, 3, 4, 5, 12], t.func.FillsAt q 0) ∧
    t.func.fetch 0 = some (.forceLoad 0) ∧ t.func.fetch 1 = some (.label 0) ∧
    ∀ q x, t.func.fetch q = some (.forceLoad x) → q < 1 ∧ (x = 0 → q = 0)
  := by
  have hok : (lower .countdown).isOk = true := by decide +kernel
  obtain ⟨g, hg⟩ := exists_eq_ok hok
  have hopt : ((lower .countdown).toOption.any fun g => (optimize g {}).isOk) = true := by decide +kernel
  have hcode : ((lower .countdown).toOption.any fun g => (optimize g {}).toOption.any fun t =>
      t.func.live.take 6 == [(0, .forceLoad 0), (1, .label 0), (2, .assign 1 0), (3, .assign 3 2),
        (4, .binary .eq 4 1 3), (5, .condJump 4 1)] &&
      t.func.live.drop 12 == [(12, .label 1), (13, .assign 9 0), (14, .ret 9)] &&
      t.func.labels.at? 1 == some 12 && t.func.isVar 0) = true := by
    decide +kernel
  rw [hg] at hopt hcode
  obtain ⟨t, ht⟩ := exists_eq_ok hopt
  simp only [ht, Except.toOption, Option.any_some, Bool.and_eq_true, beq_iff_eq] at hcode
  obtain ⟨⟨⟨hfirst, hlast⟩, hlabel⟩, hvar⟩ := hcode
  have hfetch : ∀ e ∈ t.func.live.take 6 ++ t.func.live.drop 12, t.func.fetch e.1 = some e.2 := by
    intro e he
    rcases List.mem_append.mp he with he | he
    · exact Function.mem_live.mp (List.mem_of_mem_take he)
    · exact Function.mem_live.mp (List.mem_of_mem_drop he)
  rw [hfirst, hlast] at hfetch
  simp only [List.forall_mem_cons, List.cons_append, List.nil_append] at hfetch
  obtain ⟨h₀, h₁, h₂, h₃, h₄, h₅, h₁₂, h₁₃, -⟩ := hfetch
  have hroute : t.func.Route [0, 1, 2, 3, 4, 5, 12, 13] 0 13 := by
    refine ⟨?_, rfl, rfl⟩
    simp only [List.isChain_cons_cons, List.isChain_singleton, and_true]
    exact ⟨.next h₀ rfl, .next h₁ rfl, .next h₂ rfl, .next h₃ rfl, .next h₄ rfl, .jump h₅ rfl hlabel,
      .next h₁₂ rfl⟩
  obtain ⟨hfills, hfront, honce⟩ := initialized_optimize hg ht
  refine ⟨g, t, hg, ht, hroute, ⟨9, h₁₃⟩, hvar, hfills _ 13 0 hroute ⟨9, h₁₃⟩ hvar, h₀, h₁, ?_⟩
  intro q x hq
  refine ⟨hfront q x 1 _ hq h₁ (.inl rfl), ?_⟩
  rintro rfl
  exact honce q 0 0 hq h₀

end IR

end StackCompiler
