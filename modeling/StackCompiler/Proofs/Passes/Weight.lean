import StackCompiler.Proofs.Passes.Schedule

/-!
# The weight of code

An instruction that is left weighs one, or two if it is of a kind that counts twice.  The sweep
makes no position heavier.  If forks count twice, it makes a position lighter that defines an
obsolete operand: a fork becomes an assignment before it goes.
-/

namespace StackCompiler.IR

/-- Whether an instruction fills two temps. -/
def Inst.isFork : Inst → Bool
  | fork _ _ _ => true
  | _ => false

theorem Inst.isFork_mapUses (r : OperandId → OperandId) (inst : Inst) :
  (inst.mapUses r).isFork = inst.isFork
  := by
  cases inst <;> rfl

namespace Function

variable {f f' f'' : Function} {twice : Inst → Bool} {n p : Nat}

/-- What the instruction at a position weighs: two if it counts twice. -/
def cost (twice : Inst → Bool) (f : Function) (p : Nat) : Nat :=
  match f.fetch p with
  | some inst => 1 + (twice inst).toNat
  | none => 0

/-- What the instructions left before a position weigh. -/
def weightBefore (twice : Inst → Bool) (f : Function) (n : Nat) : Nat :=
  (f.liveBefore n).length + (f.liveBefore n).countP fun e => twice e.2

/-- What the instructions left weigh. -/
def weight (twice : Inst → Bool) (f : Function) : Nat := f.weightBefore twice f.size

/-- One position further on, the weight is more by what the instruction there weighs. -/
theorem weightBefore_succ (twice : Inst → Bool) (hn : n < f.size) :
  f.weightBefore twice (n + 1) = f.weightBefore twice n + f.cost twice n
  := by
  unfold weightBefore cost
  rw [liveBefore_succ hn, List.length_append, List.countP_append]
  cases f.fetch n with
  | none => rfl
  | some inst =>
    simp only [List.length_singleton, List.countP_singleton]
    cases twice inst with
    | false => exact Nat.add_right_comm ..
    | true => exact Nat.add_add_add_comm ..

theorem weight_eq (twice : Inst → Bool) (f : Function) :
  f.weight twice = (f.live.map (·.2)).length + (f.live.map (·.2)).countP twice
  := by
  unfold weight weightBefore
  rw [liveBefore_size, List.length_map, List.countP_map]
  rfl

theorem weight_congr (h : f.SameCode f') :
  f'.weight twice = f.weight twice
  := by
  rw [weight_eq, weight_eq, live_congr h]

theorem length_live_le (f : Function) :
  f.live.length ≤ f.size
  := by
  calc
    f.live.length ≤ f.code.toList.zipIdx.length := List.length_filterMap_le ..
    _ = f.size := List.length_zipIdx.trans Array.length_toList

theorem weight_le (twice : Inst → Bool) (f : Function) :
  f.weight twice ≤ 2 * f.size
  := by
  have hlength := f.length_live_le
  have hcount := List.countP_le_length (p := twice) (l := f.live.map (·.2))
  rw [weight_eq]
  rw [List.length_map] at hcount ⊢
  omega

/-- Compaction does not change the weight. -/
theorem weight_compact (twice : Inst → Bool) (f : Function) :
  f.compact.2.weight twice = f.weight twice
  := by
  rw [weight_eq, weight_eq]
  unfold compact
  split
  · rfl
  · rw [live_of_pending_nil (by rfl)]
    rfl

/-- Code in which no position weighs more. -/
structure Lightens (twice : Inst → Bool) (f f' : Function) : Prop where
  size_eq : f'.size = f.size
  cost_le : ∀ p, f'.cost twice p ≤ f.cost twice p

namespace Lightens

theorem refl (twice : Inst → Bool) (f : Function) :
  f.Lightens twice f
  := ⟨rfl, fun _ => Nat.le_refl _⟩

theorem trans (h : f.Lightens twice f') (h' : f'.Lightens twice f'') :
  f.Lightens twice f''
  := ⟨h'.size_eq.trans h.size_eq, fun p => Nat.le_trans (h'.cost_le p) (h.cost_le p)⟩

/-- If no position weighs more, what is before a position weighs no more. -/
theorem weightBefore_le (h : f.Lightens twice f') (hn : n ≤ f.size) :
  f'.weightBefore twice n ≤ f.weightBefore twice n
  := by
  induction n with
  | zero => exact Nat.le_refl _
  | succ n ih =>
    rw [weightBefore_succ twice hn, weightBefore_succ twice (h.size_eq.symm ▸ hn)]
    exact Nat.add_le_add (ih (by omega)) (h.cost_le n)

/-- If no position weighs more and one before `n` weighs less, what is before `n` weighs less. -/
theorem weightBefore_lt (h : f.Lightens twice f') (hp : f'.cost twice p < f.cost twice p) (hlt : p < n)
    (hn : n ≤ f.size) :
  f'.weightBefore twice n < f.weightBefore twice n
  := by
  induction n with
  | zero => cases hlt
  | succ n ih =>
    rw [weightBefore_succ twice hn, weightBefore_succ twice (h.size_eq.symm ▸ hn)]
    have hcost := h.cost_le n
    rcases Nat.lt_succ_iff_lt_or_eq.mp hlt with hlt | rfl
    · have := ih hlt (by omega)
      omega
    · have := h.weightBefore_le (Nat.le_of_succ_le hn)
      omega

theorem weight_le (h : f.Lightens twice f') :
  f'.weight twice ≤ f.weight twice
  := by
  unfold weight
  rw [h.size_eq]
  exact h.weightBefore_le (Nat.le_refl _)

/-- If no position weighs more and one weighs less, the code weighs less. -/
theorem weight_lt (h : f.Lightens twice f') (hp : f'.cost twice p < f.cost twice p) :
  f'.weight twice < f.weight twice
  := by
  have hlt : p < f.size := by
    cases hfetch : f.fetch p with
    | some inst => exact lt_size_of_fetch hfetch
    | none =>
      simp only [cost, hfetch] at hp
      cases hp
  unfold weight
  rw [h.size_eq]
  exact h.weightBefore_lt hp hlt (Nat.le_refl _)

end Lightens

theorem cost_of_fetch (twice : Inst → Bool) {inst : Inst} (h : f.fetch p = some inst) :
  f.cost twice p = 1 + (twice inst).toNat
  := by
  simp only [cost, h]

theorem cost_of_none (twice : Inst → Bool) (h : f.fetch p = none) :
  f.cost twice p = 0
  := by
  simp only [cost, h]

theorem cost_congr (h : f'.fetch p = f.fetch p) :
  f'.cost twice p = f.cost twice p
  := by
  unfold cost
  rw [h]

end Function

/-! ### What the sweep takes off -/

namespace State

variable {s s' : State} {pos : Nat} {inst : Inst} {twice : Inst → Bool} {d : OperandId}

/-- After several operands are marked, the obsolete ones are these and those that were obsolete
before. -/
theorem mem_markAll {ids : List OperandId} {id : OperandId} :
  id ∈ (s.markAll ids).ctx.obsolete ↔ id ∈ ids ∨ id ∈ s.ctx.obsolete
  := by
  unfold markAll
  induction ids generalizing s with
  | nil => simp
  | cons t ids ih =>
    rw [List.foldl_cons, ih]
    simp only [mark, IdSet.mem_add, List.mem_cons]
    tauto

theorem func_markDead (s : State) :
  s.markDead.func = s.func
  := func_markAll ..

theorem cost_remove (s : State) (pos : Nat) (ids : List OperandId) :
  ((s.remove pos).markAll ids).func.cost twice pos = 0
  := by
  rw [func_markAll]
  exact Function.cost_of_none twice ((Function.fetch_remove pos pos).trans (if_pos rfl))

theorem cost_replace (h : s.func.fetch pos = some inst) (new : Inst) :
  (s.replace pos new).func.cost twice pos = 1 + (twice new).toNat
  := Function.cost_of_fetch twice ((Function.fetch_replace h new pos).trans (if_pos rfl))

/-- The sweep at one position makes no position heavier, if assignments do not count twice. -/
theorem lightens_sweepAt (htwice : ∀ dest src, twice (.assign dest src) = false)
    (h : s.func.fetch pos = some inst) :
  s.func.Lightens twice (s.sweepAt (pos, inst)).func
  := by
  have hswept := sweptAt_sweepAt h
  have hcost := Function.cost_of_fetch twice h
  suffices hpos : (s.sweepAt (pos, inst)).func.size = s.func.size ∧
      (s.sweepAt (pos, inst)).func.cost twice pos ≤ s.func.cost twice pos by
    refine ⟨hpos.1, fun p => ?_⟩
    by_cases hp : p = pos
    · rw [hp]
      exact hpos.2
    · exact Nat.le_of_eq (Function.cost_congr (hswept.fetch_eq p hp))
  obtain ⟨heq, -⟩ | ⟨ids, heq⟩ | ⟨src, d₁, d₂, dest, rfl, heq⟩ := s.sweepAt_cases pos inst
  · rw [heq]
    exact ⟨rfl, Nat.le_refl _⟩
  · rw [heq, cost_remove, func_markAll]
    exact ⟨rfl, Nat.zero_le _⟩
  · rw [heq, cost_replace h, hcost, htwice]
    exact ⟨Function.size_replace .., Nat.add_le_add_left (Nat.zero_le _) 1⟩

/-- An instruction that defines something obsolete gets lighter if forks count twice. -/
theorem cost_sweepAt_lt (h : s.func.fetch pos = some inst) (hdef : d ∈ inst.defs)
    (hd : d ∈ s.ctx.obsolete) :
  (s.sweepAt (pos, inst)).func.cost Inst.isFork pos < s.func.cost Inst.isFork pos
  := by
  rw [Function.cost_of_fetch _ h]
  obtain ⟨-, hkept⟩ | ⟨ids, heq⟩ | ⟨src, d₁, d₂, dest, rfl, heq⟩ := s.sweepAt_cases pos inst
  · exact absurd hd (hkept d hdef)
  · rw [heq, cost_remove]
    omega
  · rw [heq, cost_replace h]
    exact Nat.one_lt_two

/-- The sweep at one position lets obsolete operands stay obsolete. -/
theorem obsolete_subset_sweepAt (s : State) (pos : Nat) (inst : Inst) :
  s.ctx.obsolete ⊆ (s.sweepAt (pos, inst)).ctx.obsolete
  := by
  obtain ⟨heq, -⟩ | ⟨ids, heq⟩ | ⟨src, d₁, d₂, dest, -, heq⟩ := s.sweepAt_cases pos inst
  · rw [heq]
    exact fun _ h => h
  · rw [heq]
    exact fun _ h => mem_markAll.mpr (.inr h)
  · rw [heq]
    exact fun _ h => h

/-- The sweep over positions from the last to the first makes none of them heavier. -/
theorem lightens_sweepAll (htwice : ∀ dest src, twice (.assign dest src) = false)
    (entries : List (Nat × Inst)) (hsorted : entries.Pairwise fun a b => b.1 < a.1)
    (hfetch : ∀ e ∈ entries, s.func.fetch e.1 = some e.2) :
  s.func.Lightens twice (entries.foldl sweepAt s).func
  := by
  induction entries generalizing s with
  | nil => exact .refl twice _
  | cons e entries ih =>
    obtain ⟨hbefore, hrest⟩ := List.pairwise_cons.mp hsorted
    obtain ⟨he, hfetch⟩ := List.forall_mem_cons.mp hfetch
    have hswept := sweptAt_sweepAt he
    refine (lightens_sweepAt htwice he).trans (ih hrest fun e' he' => ?_)
    exact (hswept.fetch_eq e'.1 (Nat.ne_of_lt (hbefore e' he'))).trans (hfetch e' he')

/-- The sweep makes a position lighter that defines an obsolete operand, if forks count twice. -/
theorem cost_sweepAll_lt (entries : List (Nat × Inst)) (hsorted : entries.Pairwise fun a b => b.1 < a.1)
    (hfetch : ∀ e ∈ entries, s.func.fetch e.1 = some e.2) (hmem : (pos, inst) ∈ entries)
    (hdef : d ∈ inst.defs) (hd : d ∈ s.ctx.obsolete) :
  (entries.foldl sweepAt s).func.cost Inst.isFork pos < s.func.cost Inst.isFork pos
  := by
  induction entries generalizing s with
  | nil => cases hmem
  | cons e entries ih =>
    obtain ⟨hbefore, hrest⟩ := List.pairwise_cons.mp hsorted
    obtain ⟨he, hfetch⟩ := List.forall_mem_cons.mp hfetch
    have hswept := sweptAt_sweepAt he
    have hlater : ∀ e' ∈ entries, (s.sweepAt e).func.fetch e'.1 = some e'.2 := fun e' he' =>
      (hswept.fetch_eq e'.1 (Nat.ne_of_lt (hbefore e' he'))).trans (hfetch e' he')
    rw [List.foldl_cons]
    rcases List.mem_cons.mp hmem with rfl | hmem
    · exact Nat.lt_of_le_of_lt ((lightens_sweepAll (fun _ _ => rfl) entries hrest hlater).cost_le pos)
        (cost_sweepAt_lt he hdef hd)
    · have hcost : (s.sweepAt e).func.cost Inst.isFork pos = s.func.cost Inst.isFork pos :=
        Function.cost_congr (hswept.fetch_eq pos (Nat.ne_of_lt (hbefore _ hmem)))
      rw [← hcost]
      exact ih hrest hlater hmem (s.obsolete_subset_sweepAt e.1 e.2 hd)

theorem weight_sweep_le (twice : Inst → Bool) (htwice : ∀ dest src, twice (.assign dest src) = false)
    (s : State) :
  s.sweep.compact.func.weight twice ≤ s.func.weight twice
  := by
  change s.sweep.func.compact.2.weight twice ≤ _
  rw [Function.weight_compact]
  exact (lightens_sweepAll htwice _ (pairwise_reverse_live _) fun _ he =>
    fetch_of_mem_reverse_live he).weight_le

/-- A sweep that finds a definition of an obsolete operand takes weight off. -/
theorem weight_sweep_lt (hdef : s.func.DefinesAt pos d) (hd : d ∈ s.ctx.obsolete) :
  s.sweep.compact.func.weight Inst.isFork < s.func.weight Inst.isFork
  := by
  obtain ⟨inst, hfetch, hdef⟩ := hdef
  have hlive := fun e (he : e ∈ s.func.live.reverse) => fetch_of_mem_reverse_live he
  change s.sweep.func.compact.2.weight Inst.isFork < _
  rw [Function.weight_compact]
  apply (lightens_sweepAll (fun _ _ => rfl) _ (pairwise_reverse_live _) hlive).weight_lt
  exact cost_sweepAll_lt _ (pairwise_reverse_live _) hlive
    (List.mem_reverse.mpr (Function.mem_live.mpr hfetch)) hdef hd

end State

end StackCompiler.IR
