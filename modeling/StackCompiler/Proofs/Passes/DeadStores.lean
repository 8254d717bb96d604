import StackCompiler.Proofs.Passes.Schedule

/-!
# Which stores are removed

A store is judged dead by the one interval of its variable, which each jump back widens at most
once.  Control can leave such an interval only over two loops that overlap: it goes back into the
earlier one from outside, and from there back to a read.  In code whose loops are nested or
disjoint no path leads from a removed store to a read of its variable; where loops overlap, a
store can be removed that is read.
-/

namespace StackCompiler.IR

namespace Function

variable {f : Function} {x : OperandId} {pos r : Nat}

/-- A variable is written at a position. -/
def StoresAt (f : Function) (pos : Nat) (x : OperandId) : Prop := ∃ src, f.fetch pos = some (.store x src)

/-- Control may go on from a position to a read of a variable without another store to it. -/
def ReadAfter (f : Function) (x : OperandId) (pos : Nat) : Prop :=
  ∃ p r, f.Flows pos p ∧ Relation.ReflTransGen (fun a b => f.Flows a b ∧ ¬ f.StoresAt a x) p r ∧
    f.LoadsAt r x

/-- If a variable is read after a position, there is a path from there to a read. -/
theorem ReadAfter.exists_path (h : f.ReadAfter x pos) :
  ∃ r, f.LoadsAt r x ∧ f.Path pos r
  := by
  obtain ⟨p, r, hstep, hrest, hload⟩ := h
  have hpath : Relation.ReflTransGen f.Flows p r := Relation.ReflTransGen.mono (fun _ _ h => h.1) p r hrest
  exact ⟨r, hload, Relation.TransGen.head' hstep hpath⟩

/-- From a store after which no interval of its variable goes on, a path to a read goes back over
two loops that overlap. -/
theorem UnreadAfter.exists_crosses (h : f.UnreadAfter x pos) (wf : f.WellFormed) (hstore : f.StoresAt pos x)
    (hload : f.LoadsAt r x) (hpath : f.Path pos r) :
  ∃ t j t' j', f.Crosses pos r t j t' j'
  := by
  have hle := h.load_le r hload
  rcases exists_isLoop_or_crosses wf hpath hle with ⟨t, j, hloop, htr, hpj, -⟩ | hcross
  · -- A loop around the read and the store would end at the store, which is no jump.
    have hend := h.loop_le t j r hloop htr (by omega) hload
    obtain rfl : pos = j := by omega
    obtain ⟨src, hfetch⟩ := hstore
    obtain ⟨-, i, l, hi, hl, -⟩ := hloop
    rw [hfetch] at hi
    cases hi
    cases hl
  · exact hcross

end Function

/-- After any passes on lowered code, the pass over dead stores succeeds and counts the stores that
it judges dead.  In the code in which it judges one, every path from the store to a read of its
variable goes back over two loops that overlap, so there is none where loops are nested or
disjoint. -/
theorem crosses_of_unreadStores {f : Bytecode.Function} {g : Function} (hlower : lower f = .ok g)
    {o : Options} {passes : List PassName} {s : State} (hrun : (State.initial g o).runAll passes = .ok s) :
  (∃ s', PassName.deadStores.pass s = .ok s' ∧ s'.ctx.stats.deadStores
      = s.ctx.stats.deadStores + (s.judgements.flatMap fun j => j.func.unreadStores).length) ∧
    ∀ j ∈ s.judgements, ∀ e ∈ j.func.unreadStores, ∃ x src, j.func.fetch e.1 = some (.store x src) ∧
      (∀ r, j.func.LoadsAt r x → j.func.Path e.1 r → ∃ t b t' b', j.func.Crosses e.1 r t b t' b') ∧
      (j.func.LoopsNest → ¬ j.func.ReadAfter x e.1)
  := by
  have horderly : s.Orderly := by
    rw [← State.callAll_of_runAll hrun]
    exact State.orderly_callAll (State.orderly_lower hlower rfl) _
  constructor
  · obtain ⟨s', hpass⟩ := State.exists_removeStores horderly
    exact ⟨s', hpass, State.count_removeStores hpass⟩
  · intro j hj e he
    obtain ⟨u, hreach, hana⟩ := State.exists_of_mem_storeJudgements horderly.toSettled hj
    have wf := (State.reaches_readIntervals hreach.settled hana).settled.obsolete.wellFormed
    obtain ⟨hfetch, x, src, hstore, -, hunread⟩ := State.unreadAfter_of_mem hreach.settled hana he
    rw [hstore] at hfetch
    have hcross : ∀ r, j.func.LoadsAt r x → j.func.Path e.1 r →
        ∃ t b t' b', j.func.Crosses e.1 r t b t' b' :=
      fun r hload hpath => hunread.exists_crosses wf ⟨src, hfetch⟩ hload hpath
    refine ⟨x, src, hfetch, hcross, fun hnest hread => ?_⟩
    obtain ⟨r, hload, hpath⟩ := hread.exists_path
    obtain ⟨t, b, t', b', h⟩ := hcross r hload hpath
    exact h.not_loopsNest hnest

/-- The passes that the optimizer runs before it first removes dead stores. -/
def beforeDeadStores : List PassName :=
  [.loadVars, .propagateTypes, .foldConstants, .specializeTypes, .forwardStores]

theorem schedule_default :
  ∃ rest, PassName.schedule {} = beforeDeadStores ++ .deadStores :: rest
  := ⟨_, rfl⟩

/-- The state in which the optimizer first judges the stores of a function. -/
def firstJudgement (f : Bytecode.Function) : Option State := do
  let g ← (lower f).toOption
  let s ← ((State.initial g {}).runAll beforeDeadStores).toOption
  s.judgements.head?

/-- The first judgement of dead stores is one that the optimizer makes. -/
theorem exists_of_firstJudgement {f : Bytecode.Function} {j : State} (h : firstJudgement f = some j) :
  ∃ g s, lower f = .ok g ∧ (State.initial g {}).runAll beforeDeadStores = .ok s ∧ j ∈ s.judgements
  := by
  unfold firstJudgement at h
  obtain ⟨g, hg, h⟩ := Option.bind_eq_some_iff.mp h
  obtain ⟨s, hs, h⟩ := Option.bind_eq_some_iff.mp h
  exact ⟨g, s, eq_ok_of_toOption hg, eq_ok_of_toOption hs, List.mem_of_mem_head? h⟩

/-- A loop that reads a variable, with a store to it after the loop. -/
def storeAfterLoop : Bytecode.Function where
  constants := [.none]
  parameterCount := 1
  localVars := ["x"]
  instructions := [
    ⟨.label, some 0⟩, ⟨.loadLocal, some 0⟩, ⟨.branch, some 0⟩, ⟨.loadConst, some 0⟩,
    ⟨.storeLocal, some 0⟩, ⟨.loadConst, some 0⟩, ⟨.ret, none⟩]

/-- The store after the loop is removed: its variable is read in the loop only. -/
theorem crosses_of_unreadStores_storeAfterLoop :
  ∃ g s j, lower storeAfterLoop = .ok g ∧ (State.initial g {}).runAll beforeDeadStores = .ok s ∧
    j ∈ s.judgements ∧ (6, Inst.store 0 3) ∈ j.func.unreadStores ∧ j.func.LoadsAt 2 0 ∧
    j.func.IsLoop 1 4 ∧ ¬ j.func.ReadAfter 0 6
  := by
  have hcode : (firstJudgement storeAfterLoop).any (fun j =>
      j.func.unreadStores == [(6, .store 0 3)] && j.func.fetch 2 == some (.assign 1 0) &&
      j.func.fetch 6 == some (.store 0 3) && j.func.loops == [(1, 4)] &&
      decide j.func.LoopsNest) = true := by
    decide +kernel
  obtain ⟨j, hj, hcode⟩ := Option.any_eq_true _ _ |>.mp hcode
  simp only [Bool.and_eq_true, decide_eq_true_eq, beq_iff_eq] at hcode
  obtain ⟨⟨⟨⟨hdead, hload⟩, hstore⟩, hloops⟩, hnest⟩ := hcode
  obtain ⟨g, s, hg, hs, hmem⟩ := exists_of_firstJudgement hj
  have he : (6, Inst.store 0 3) ∈ j.func.unreadStores := by
    rw [hdead]
    exact List.mem_singleton_self _
  have hloop : j.func.IsLoop 1 4 := by
    apply Function.mem_loops.mp
    rw [hloops]
    exact List.mem_singleton_self _
  obtain ⟨x, src, hfetch, -, hunread⟩ := (crosses_of_unreadStores hg hs).2 j hmem _ he
  rw [hstore] at hfetch
  cases hfetch
  exact ⟨g, s, j, hg, hs, hmem, he, ⟨1, hload⟩, hloop, hunread hnest⟩

/-- Two loops that overlap: the earlier one reads a variable, and the later one jumps back into
the earlier one after it stores to the variable. -/
def overlappingLoops : Bytecode.Function where
  constants := [.integer 5]
  names := ["g"]
  parameterCount := 2
  localVars := ["x", "c"]
  instructions := [
    ⟨.label, some 0⟩, ⟨.loadLocal, some 0⟩, ⟨.storeGlobal, some 0⟩, ⟨.label, some 1⟩,
    ⟨.loadLocal, some 1⟩, ⟨.branch, some 0⟩, ⟨.loadConst, some 0⟩, ⟨.storeLocal, some 0⟩,
    ⟨.loadLocal, some 1⟩, ⟨.branch, some 1⟩, ⟨.loadConst, some 0⟩, ⟨.ret, none⟩]

/-- The optimizer removes the store between the loops, and its variable is read after it. -/
theorem readAfter_unreadStores_overlappingLoops :
  ∃ g s j, lower overlappingLoops = .ok g ∧
    (∃ rest, PassName.schedule {} = beforeDeadStores ++ .deadStores :: rest) ∧
    (State.initial g {}).runAll beforeDeadStores = .ok s ∧ j ∈ s.judgements ∧
    (10, Inst.store 0 6) ∈ j.func.unreadStores ∧ j.func.ReadAfter 0 10
  := by
  have hcode : (firstJudgement overlappingLoops).any (fun j =>
      j.func.unreadStores == [(10, .store 0 6)] &&
      j.func.labels.at? 0 == some 2 && j.func.labels.at? 1 == some 5 &&
      j.func.fetch 2 == some (.label 0) && j.func.fetch 3 == some (.assign 1 0) &&
      j.func.fetch 5 == some (.label 1) && j.func.fetch 6 == some (.assign 4 3) &&
      j.func.fetch 7 == some (.assertion .bool 4) && j.func.fetch 8 == some (.condJump 4 0) &&
      j.func.fetch 10 == some (.store 0 6) && j.func.fetch 11 == some (.assign 7 3) &&
      j.func.fetch 12 == some (.assertion .bool 7) && j.func.fetch 13 == some (.condJump 7 1)) = true := by
    decide +kernel
  obtain ⟨j, hj, hcode⟩ := Option.any_eq_true _ _ |>.mp hcode
  simp only [Bool.and_eq_true, beq_iff_eq] at hcode
  obtain ⟨⟨⟨⟨⟨⟨⟨⟨⟨⟨⟨⟨hdead, hl₀⟩, hl₁⟩, h₂⟩, h₃⟩, h₅⟩, h₆⟩, h₇⟩, h₈⟩, h₁₀⟩, h₁₁⟩, h₁₂⟩, h₁₃⟩ := hcode
  obtain ⟨g, s, hg, hs, hmem⟩ := exists_of_firstJudgement hj
  refine ⟨g, s, j, hg, schedule_default, hs, hmem, ?_, ?_⟩
  · rw [hdead]
    exact List.mem_singleton_self _
  · have hother : ∀ {p i}, j.func.fetch p = some i → (∀ src, i ≠ .store 0 src) → ¬ j.func.StoresAt p 0 := by
      rintro p i hi hne ⟨src, hsrc⟩
      exact hne src (Option.some.inj (hi.symm.trans hsrc))
    -- Control goes on to the later jump, back into the earlier loop, and back to its start.
    refine ⟨11, 3, .next h₁₀ rfl, ?_, 1, h₃⟩
    apply Relation.ReflTransGen.head ⟨.next h₁₁ rfl, hother h₁₁ (by rintro _ ⟨⟩)⟩
    apply Relation.ReflTransGen.head ⟨.next h₁₂ rfl, hother h₁₂ (by rintro _ ⟨⟩)⟩
    apply Relation.ReflTransGen.head ⟨.jump h₁₃ rfl hl₁, hother h₁₃ (by rintro _ ⟨⟩)⟩
    apply Relation.ReflTransGen.head ⟨.next h₅ rfl, hother h₅ (by rintro _ ⟨⟩)⟩
    apply Relation.ReflTransGen.head ⟨.next h₆ rfl, hother h₆ (by rintro _ ⟨⟩)⟩
    apply Relation.ReflTransGen.head ⟨.next h₇ rfl, hother h₇ (by rintro _ ⟨⟩)⟩
    apply Relation.ReflTransGen.head ⟨.jump h₈ rfl hl₀, hother h₈ (by rintro _ ⟨⟩)⟩
    exact Relation.ReflTransGen.single ⟨.next h₂ rfl, hother h₂ (by rintro _ ⟨⟩)⟩

end StackCompiler.IR
