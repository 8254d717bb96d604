import StackCompiler.Proofs.Meaning.Rounds
import StackCompiler.Proofs.Passes.Invariants

/-!
# The optimizer preserves meaning

Entry loads fill variables with what they hold on entry, and the two forms of a jump do the
same.  With what is known of rounds, a function returns after optimization whatever it returned
before it, and leaves the same effects behind.
-/

namespace StackCompiler.IR

open Bytecode (Constant)

variable {World : Type} {rt : Runtime World}

namespace Function

variable {f : Function} {pos : Nat}

/-! ### Entry loads -/

theorem fetch_room (hp : f.pending = []) (x : OperandId) :
  (f.withRoom 0 (.forceLoad x)).fetch 0 = none
  := by
  rw [fetch_withRoom hp (Nat.zero_le _), if_neg (Nat.lt_irrefl _), if_pos rfl]

/-- A load gives a variable what it holds on entry. -/
theorem step_loaded (hp : f.pending = []) {x : OperandId} {locals : Nat → Value} {c : Config World}
    (hentry : c.pos = 0 → ∀ v, f.entryValue locals x = some v → c.cells x = v) :
  (f.inserted 0 (.forceLoad x)).step rt locals c = (f.withRoom 0 (.forceLoad x)).step rt locals c
  := by
  have h := inPlace_loaded hp x
  have hkind : ∀ id, (f.inserted 0 (.forceLoad x)).kind id = (f.withRoom 0 (.forceLoad x)).kind id :=
    fun _ => rfl
  by_cases hpos : c.pos = 0
  · have hload : (f.inserted 0 (.forceLoad x)).fetch c.pos = some (.forceLoad x) := by
      rw [hpos, fetch_loaded_zero hp]
    have hroom : (f.withRoom 0 (.forceLoad x)).fetch c.pos = none := by
      rw [hpos, fetch_room hp]
    have hlt := lt_size_of_fetch hload
    rw [step_of_fetch hlt hload, step_of_fetch_none (h.size_eq ▸ hlt) hroom]
    have hvalue : (f.inserted 0 (.forceLoad x)).entryValue locals x = f.entryValue locals x := rfl
    simp only [Inst.action, perform, hvalue]
    cases hv : f.entryValue locals x with
    | none => rfl
    | some v =>
      have hput : c.cells.put x v = c.cells := by
        funext id
        by_cases hid : id = x
        · rw [hid, Cells.put_self, hentry hpos v hv]
        · exact Cells.put_of_ne _ _ hid
      simp only [hput]
      rfl
  · apply step_congr h.size_eq h.labels_eq hkind
    left
    rw [fetch_withRoom hp (Nat.zero_le _), fetch_inserted hp (Nat.zero_le _)]
    simp only [if_neg hpos]

/-- A function is preserved when an entry load is put at the top, since variables hold their
locals there. -/
theorem preservedBy_loaded (wf : f.WellFormed) (hp : f.pending = []) (x : OperandId) :
  f.PreservedBy rt (f.inserted 0 (.forceLoad x))
  := by
  have hlabel : ∀ l, Inst.forceLoad x ≠ .label l := fun _ => nofun
  have hφ := compacts_withRoom hp (Nat.zero_le _) hlabel wf.labels
  have hlabels := at?_labels_withRoom hp (Nat.zero_le _) hlabel wf.labels
  apply (hφ.preservedBy_back fun l p => (hlabels l p).mp).trans
  rintro locals scratch world v w es ⟨n, trace, hrun, heffects⟩
  refine ⟨n, trace, ?_, heffects⟩
  rw [← hrun]
  -- Control never comes back to the top, for no label is there.
  apply Progress.run_congr
    (I := fun c => c.pos = 0 → ∀ v, f.entryValue locals x = some v → c.cells x = v)
  · intro c d _ hd hpos
    have hflow := flows_of_step hd
    rw [hpos] at hflow
    cases hflow with
    | jump _ _ hlabel =>
      rw [hlabels, fetch_room hp] at hlabel
      cases hlabel
  · exact fun c => step_loaded hp
  · intro _ v hv
    change (f.entryValue locals x).getD _ = v
    rw [hv]
    rfl

/-- A function is preserved when entry loads are put at the top. -/
theorem preservedBy_withLoads (wf : f.WellFormed) (hp : f.pending = []) {xs : List OperandId}
    (hxs : ∀ x ∈ xs, f.isVar x = true) :
  f.PreservedBy rt (f.withLoads xs)
  := by
  induction xs with
  | nil => exact .refl f
  | cons x xs ih =>
    have hxs' : ∀ y ∈ xs, f.isVar y = true := fun y hy => hxs y (List.mem_cons_of_mem _ hy)
    apply (ih hxs').trans
    exact preservedBy_loaded (wellFormed_withLoads wf hp hxs') ((pending_withLoads f xs).trans hp) x

/-! ### Short jumps -/

/-- A function is preserved when a jump is shortened, since both forms do the same. -/
theorem preservedBy_shortened {l : Label} (hfetch : f.fetch pos = some (.jump l)) :
  f.PreservedBy rt (f.replace pos (.shortJump l))
  := by
  have h := inPlace_shortened hfetch
  have hkind : ∀ id, (f.replace pos (.shortJump l)).kind id = f.kind id := fun _ => rfl
  apply preservedBy_of_step_eq hkind
  intro locals c
  apply step_congr h.size_eq h.labels_eq hkind
  rw [fetch_replace hfetch]
  split
  · rename_i hp
    exact .inr ⟨l, hp ▸ hfetch, rfl⟩
  · exact .inl rfl

/-- Literals still fit when a jump is shortened. -/
theorem SmallLiterals.shortened {l : Label} (h : f.SmallLiterals) (wf : f.WellFormed)
    (hfetch : f.fetch pos = some (.jump l)) :
  (f.replace pos (.shortJump l)).SmallLiterals
  := by
  apply (inPlace_shortened hfetch).smallLiterals wf h
  exact fun p id hread => .inl (reads_shortened hfetch hread)

/-- What rounds need of code holds when a jump is shortened. -/
theorem Optimizable.shortened {l : Label} (hf : f.Optimizable) (hfetch : f.fetch pos = some (.jump l)) :
  (f.replace pos (.shortJump l)).Optimizable
  where
  toChecked := hf.toChecked.shortened hfetch
  nested := loopsNest_shortened hf.nested hfetch
  small := hf.small.shortened hf.wellFormed hfetch

/-! ### Cells on entry -/

/-- A run does not depend on what temps hold on entry. -/
theorem Checked.returns_start (hf : f.Checked) {locals : Nat → Value} (scratch scratch' : Cells)
    {world w : World} {v : Value} {es : List Request}
    (h : f.Returns rt locals (f.start locals scratch world) v w es) :
  f.Returns rt locals (f.start locals scratch' world) v w es
  := by
  have hplace := (SameCode.refl f).inPlace
  have hstart : f.Agrees f (f.start locals scratch world) (f.start locals scratch' world) := by
    refine ⟨rfl, rfl, rfl, rfl, ?_⟩
    rintro id - (⟨q, -, hlt, -⟩ | ⟨hvar, -⟩)
    · exact absurd hlt (Nat.not_lt_zero q)
    · obtain ⟨n, hn⟩ := isVar_iff.mp hvar
      simp only [start, entryValue, hn, Option.getD_some]
  apply returns_of_leaps (I := fun _ => True) _ trivial hstart h
  intro c c' n v w trace _ hc hrun
  have hfollows : f.Follows f rt locals c c' :=
    hc.follows_of_fetch_eq hplace hf.wellFormed hf.wellFormed hf.isLocal rfl
  rcases hfollows.leap hrun with hend | ⟨d, d', hd, hd', hagrees⟩
  · exact .inl hend
  · exact .inr ⟨0, d, 1, d', (Progress.run_one c).trans hd, (Progress.run_one c').trans hd', trivial, hagrees⟩

/-! ### Literals of lowered code -/

/-- Literals still fit when entry loads are put at the top. -/
theorem smallLiterals_withLoads (hsmall : f.SmallLiterals) (hp : f.pending = []) (xs : List OperandId) :
  (f.withLoads xs).SmallLiterals
  := by
  rintro p id k ⟨i, hi, hid⟩ hk
  rw [kind_withLoads] at hk
  rcases fetch_withLoads_cases hp hi with ⟨-, x, rfl⟩ | ⟨q, -, hi⟩
  · cases hid
  · exact hsmall q id k ⟨i, hi, hid⟩ hk

end Function

/-- The literals that instructions load are constants of the function. -/
theorem Operation.mem_constants {f : Bytecode.Function} {index : Nat} {i : Bytecode.Instruction}
    {operation : Operation} (h : ofInstruction f index i = .ok operation) {c : Constant}
    (hc : operation.operandKind? = some (.const c)) :
  c ∈ f.constants
  := by
  obtain ⟨op, arg⟩ := i
  cases op
  case loadConst =>
    obtain ⟨n, hn, rfl⟩ := map_eq_ok h
    cases hc
    have hlt := (indexInto_eq_ok hn).2
    rw [List.getD_eq_getElem?_getD, List.getElem?_eq_getElem hlt]
    exact List.getElem_mem hlt
  case add | eq | sub | mul | div | gt | geq | and | or | allocRecord | indexLoad | indexStore | ret | neg
      | not | dup | swap | pop | collect =>
    cases h
    cases hc
  all_goals
    obtain ⟨n, -, rfl⟩ := map_eq_ok h
    cases hc

open IR.Function in
/-- Lowered code reads no literals but the constants of the function. -/
theorem Lowering.smallLiterals_lower {f : Bytecode.Function} {g : Function} (h : lower f = .ok g)
    (hsmall : ∀ c ∈ f.constants, c.IsSmall) :
  g.SmallLiterals
  := by
  rintro p id k ⟨inst, hfetch, hid⟩ hk
  have wf := wellFormed_lower h
  obtain ⟨s, hs, rfl, -⟩ := lower_eq_ok h
  obtain ⟨n, hn, hc⟩ := exists_covers (Nat.le_refl _) hs (lt_size_of_fetch hfetch)
  obtain ⟨i, r, r', operation, operand, dest, dest', insts, -, -, hr', -, -, ho, hem, hj⟩ :=
    emission_of_covers h hn hc hfetch
  rcases (wf.fits p inst hfetch).use_temp id hid with htemp | ⟨d, rfl⟩
  · obtain ⟨m, hm⟩ := isTemp_iff.mp htemp
    rw [hm] at hk
    cases hk
  · obtain ⟨rfl, kind, hkind⟩ := (hem.places (List.mem_of_getElem? hj)).1 d id rfl
    obtain ⟨hlt, hkind'⟩ := hem.operand_kind kind hkind
    obtain ⟨rest, hext⟩ := extends_lower h (Nat.succ_le_of_lt hn) hr'
    rw [hext.kind_eq hlt, hkind'] at hk
    subst hk
    exact hsmall k (Operation.mem_constants ho hkind)

/-! ### The optimizer -/

open IR.Function

/-- What preserves the meaning of a function, and can be optimized, is kept by the optimizer. -/
theorem kept_preserved (hrt : rt.Lawful) (g : Function) :
  Kept fun f => f.Optimizable ∧ g.PreservedBy rt f
  := by
  constructor
  · rintro f f' ⟨hf, hpreserved⟩ hedit
    exact ⟨hedit.optimizable hf, hpreserved.trans (hedit.preservedBy hrt hf)⟩
  · rintro f pos l ⟨hf, hpreserved⟩ hfetch
    exact ⟨hf.shortened hfetch, hpreserved.trans (preservedBy_shortened hfetch)⟩

/-- The optimizer preserves meaning: what lowered code returns, the code that the optimizer gives
under any options returns as well.  It does so from the same locals in the same world, leaves
the same world behind and has the same effects in the same order. -/
theorem optimize_preserves {f : Bytecode.Function} {g : Function} (hlower : lower f = .ok g)
    (hempty : f.EmptyAtJumps) (hnest : f.LoopsNest) (hsmall : ∀ c ∈ f.constants, c.IsSmall)
    {o : Options} {t : State} (hopt : optimize g o = .ok t) {rt : Runtime World} (hrt : rt.Lawful)
    (locals : Nat → Value) (scratch scratch' : Cells) (world : World) {n : Nat} {v : Value} {w : World}
    {trace : List Request}
    (hrun : g.run rt locals n (g.start locals scratch world) = .ended (.returned v w trace)) :
  ∃ m trace', t.func.run rt locals m (t.func.start locals scratch' world) = .ended (.returned v w trace') ∧
    effects trace' = effects trace
  := by
  have wf := Lowering.wellFormed_lower hlower
  have hp := (Lowering.sound_lower hlower).1
  have hvars : ∀ x ∈ g.entryLoads, g.isVar x = true := fun _ => isVar_of_mem_entryLoads
  have hctx : ({ options := o } : Context).obsolete = [] := rfl
  obtain ⟨-, hchecked, -⟩ := State.loadVars_lower hlower hempty hctx
  have hloaded : (g.withLoads g.entryLoads).Optimizable :=
    ⟨hchecked, loopsNest_withLoads wf (Lowering.loopsNest_lower hlower hempty hnest) hp hvars,
      smallLiterals_withLoads (Lowering.smallLiterals_lower hlower hsmall) hp _⟩
  obtain ⟨f', ⟨hf', hpreserved⟩, hintervals⟩ := (kept_preserved hrt g).optimize hlower hempty
    ⟨hloaded, preservedBy_withLoads wf hp hvars⟩ hopt
  have hhints := f'.sameHints_intervals
  rw [hintervals] at hhints
  have hsame : f'.SameCode t.func := hhints.same
  have hreturns := hpreserved locals scratch world v w _ ⟨n, trace, hrun, rfl⟩
  exact hsame.preservedBy locals scratch' world v w _ (hf'.toChecked.returns_start scratch scratch' hreturns)

/-- A loop that counts down is changed by the optimizer, and returns what it returned before. -/
theorem optimize_preserves_countdown :
  Bytecode.Function.countdown.EmptyAtJumps ∧ Bytecode.Function.countdown.LoopsNest ∧
    (∀ c ∈ Bytecode.Function.countdown.constants, c.IsSmall) ∧
    ∃ g t n trace, lower .countdown = .ok g ∧ optimize g {} = .ok t ∧ t.func.code ≠ g.code ∧
      g.run .arithmetic (fun _ => .int 2) n (g.start (fun _ => .int 2) (fun _ => .none) ())
        = .ended (.returned (.int 0) () trace) ∧
      ∃ m trace', t.func.run .arithmetic (fun _ => .int 2) m
          (t.func.start (fun _ => .int 2) (fun _ => .bool true) ()) = .ended (.returned (.int 0) () trace') ∧
        effects trace' = effects trace
  := by
  have he : Bytecode.Function.countdown.EmptyAtJumps := by decide +kernel
  have hn : Bytecode.Function.countdown.LoopsNest := by decide +kernel
  have hs : ∀ c ∈ Bytecode.Function.countdown.constants, c.IsSmall := by decide +kernel
  have hrun : (match lower .countdown with
      | .error _ => false
      | .ok g =>
        (match optimize g {} with
        | .error _ => false
        | .ok t => decide (t.func.code ≠ g.code)) &&
        match g.run .arithmetic (fun _ => .int 2) 100 (g.start (fun _ => .int 2) (fun _ => .none) ()) with
        | .ended (.returned v _ _) => v == .int 0
        | _ => false) = true := by
    decide +kernel
  have hok : (lower .countdown).isOk = true := by decide +kernel
  obtain ⟨g, hg⟩ := exists_eq_ok hok
  rw [hg] at hrun
  simp only [Bool.and_eq_true] at hrun
  obtain ⟨hopt, hret⟩ := hrun
  split at hopt
  · cases hopt
  · rename_i t ht
    split at hret
    · rename_i v w trace hv
      cases beq_iff_eq.mp hret
      exact ⟨he, hn, hs, g, t, 100, trace, hg, ht, of_decide_eq_true hopt, hv,
        optimize_preserves hg he hn hs ht Runtime.lawful_arithmetic (fun _ => .int 2) (fun _ => .none)
          (fun _ => .bool true) () hv⟩
    · cases hret

end StackCompiler.IR
