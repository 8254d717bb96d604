import Mathlib.Data.List.TakeDrop
import StackCompiler.IR.Allocation
import StackCompiler.Proofs.Passes.Intervals

/-!
# Owners of registers

The scan gives a register to an operand of its own, or lets a temp borrow the register of the
operand that it is loaded from.  `Keeps` is what it keeps true while it places one operand
after the other: owners of one register have intervals apart, and what borrows a register is
given up together with its lender.  Each way to place an operand keeps it.
-/

namespace StackCompiler.IR

/-- Two intervals have a stretch in common. -/
def Operand.Overlaps (a b : Operand) : Prop :=
  a.firstPosition < b.lastPosition ∧ b.firstPosition < a.lastPosition

instance (a b : Operand) : Decidable (a.Overlaps b) := inferInstanceAs (Decidable (_ ∧ _))

theorem Operand.Overlaps.symm {a b : Operand} (h : a.Overlaps b) :
  b.Overlaps a
  := And.symm h

namespace Function

variable {f g : Function}

/-- A temp is loaded from an operand whose interval holds that of the temp and which, if it is
a variable, is not stored to while the temp lives. -/
structure Borrows (f : Function) (t v : OperandId) : Prop where
  temp : f.isTemp t = true
  load : f.fetch (f.operand t).firstPosition = some (.assign t v)
  first_le : (f.operand v).firstPosition ≤ (f.operand t).firstPosition
  last_le : (f.operand t).lastPosition ≤ (f.operand v).lastPosition
  kept : f.isVar v = true → ∀ p s, f.fetch p = some (.store v s) →
    ¬ ((f.operand t).firstPosition < p ∧ p ≤ (f.operand t).lastPosition)

/-- A temp or variable whose interval starts where it is defined, read or loaded. -/
structure Starts (f : Function) (id : OperandId) : Prop where
  lt : id < f.operands.size
  value : f.isTemp id = true ∨ f.isVar id = true
  enters : f.isTemp id = true → f.EntersAt (f.operand id).firstPosition id
  accesses : f.isVar id = true → f.AccessesAt (f.operand id).firstPosition id

/-! ### Functions with other registers -/

/-- A function that differs in registers only. -/
structure Placed (f g : Function) : Prop where
  same : f.SameCode g
  operand : ∀ id, ∃ r, g.operand id = { f.operand id with register := r }

namespace Placed

theorem refl (f : Function) :
  f.Placed f
  := ⟨.refl f, fun id => ⟨(f.operand id).register, rfl⟩⟩

theorem trans {h : Function} (hf : f.Placed g) (hg : g.Placed h) :
  f.Placed h
  := by
  refine ⟨hf.same.trans hg.same, fun id => ?_⟩
  obtain ⟨r, hr⟩ := hf.operand id
  obtain ⟨r', hr'⟩ := hg.operand id
  exact ⟨r', by rw [hr', hr]⟩

/-- Intervals start where they did if only registers differ. -/
theorem firstPosition_eq (h : f.Placed g) (id : OperandId) :
  (g.operand id).firstPosition = (f.operand id).firstPosition
  := by
  obtain ⟨r, hr⟩ := h.operand id
  rw [hr]
  rfl

/-- Intervals end where they did if only registers differ. -/
theorem lastPosition_eq (h : f.Placed g) (id : OperandId) :
  (g.operand id).lastPosition = (f.operand id).lastPosition
  := by
  obtain ⟨r, hr⟩ := h.operand id
  rw [hr]
  rfl

/-- An operand has an interval exactly if it had one, if only registers differ. -/
theorem isLive_eq (h : f.Placed g) (id : OperandId) :
  (g.operand id).isLive = (f.operand id).isLive
  := by
  obtain ⟨r, hr⟩ := h.operand id
  rw [hr]
  rfl

theorem isTemp_eq (h : f.Placed g) (id : OperandId) :
  g.isTemp id = f.isTemp id
  := isTemp_congr (h.same.kind_eq id)

theorem isVar_eq (h : f.Placed g) (id : OperandId) :
  g.isVar id = f.isVar id
  := isVar_congr (h.same.kind_eq id)

theorem inst?_eq (h : f.Placed g) (pos : Nat) :
  g.inst? pos = f.inst? pos
  := by
  unfold inst?
  rw [h.same.code_eq]

end Placed

/-- Giving an operand a register, or taking it away, changes registers only. -/
theorem placed_modify (f : Function) (id : OperandId) (r : Option Register) :
  f.Placed (f.modify id fun o => { o with register := r })
  := by
  refine ⟨sameCode_modify id _ fun _ => rfl, fun other => ?_⟩
  rw [operand_modify]
  split
  · rename_i h
    exact ⟨r, by rw [h.1]⟩
  · exact ⟨(f.operand other).register, rfl⟩

/-- Clearing registers takes away those of temps and variables, and changes nothing else. -/
theorem operand_clearRegisters (f : Function) (id : OperandId) :
  f.clearRegisters.operand id
    = if (f.operand id).isTemp || (f.operand id).isVar then { f.operand id with register := none }
      else f.operand id
  := by
  unfold clearRegisters operand
  simp only [Array.getD_eq_getD_getElem?, Array.getElem?_map]
  cases f.operands[id]? with
  | none => rfl
  | some o => rfl

/-- Clearing registers changes registers only. -/
theorem placed_clearRegisters (f : Function) :
  f.Placed f.clearRegisters
  := by
  have hoperand : ∀ id, ∃ r, f.clearRegisters.operand id = { f.operand id with register := r } := by
    intro id
    rw [operand_clearRegisters]
    split
    · exact ⟨none, rfl⟩
    · exact ⟨(f.operand id).register, rfl⟩
  refine ⟨⟨rfl, rfl, rfl, rfl, Array.size_map .., fun id => ?_⟩, hoperand⟩
  obtain ⟨r, hr⟩ := hoperand id
  unfold kind
  rw [hr]

end Function

/-! ### The registers of a scan -/

namespace LinearScan

variable {f : Function} {pool : List Register} {s s' : LinearScan} {done owners : List OperandId}
  {now : Nat} {id : OperandId}

/-- The register of an operand. -/
def registerOf (s : LinearScan) (id : OperandId) : Option Register := (s.func.operand id).register

theorem registerOf_assign_self (hid : id < s.func.operands.size) (r : Option Register) :
  (s.assign id r).registerOf id = r
  := by
  unfold registerOf assign
  rw [Function.operand_modify_self _ hid]

theorem registerOf_assign_of_ne {other : OperandId} (h : other ≠ id) (r : Option Register) :
  (s.assign id r).registerOf other = s.registerOf other
  := by
  unfold registerOf assign
  rw [Function.operand_modify_of_ne _ h]

/-- Taking the registers of several operands away. -/
theorem registerOf_assignAll (ids : List OperandId) (x : OperandId) :
  (ids.foldl (fun s t => s.assign t none) s).registerOf x = if x ∈ ids then none else s.registerOf x
  := by
  induction ids generalizing s with
  | nil => simp
  | cons t ids ih =>
    rw [List.foldl_cons, ih]
    by_cases hx : x ∈ ids
    · simp [hx]
    · by_cases ht : x = t
      · subst ht
        simp only [if_neg hx, List.mem_cons, true_or, if_true]
        rcases Nat.lt_or_ge x s.func.operands.size with hlt | hge
        · exact registerOf_assign_self hlt none
        · unfold registerOf assign Function.operand
          rw [Array.getD_eq_getD_getElem?, Array.getElem?_eq_none (by simpa [Function.modify] using hge)]
          rfl
      · simp only [if_neg hx, List.mem_cons, ht, false_or]
        exact registerOf_assign_of_ne ht none

theorem placed_assign (s : LinearScan) (id : OperandId) (r : Option Register) :
  s.func.Placed (s.assign id r).func
  := s.func.placed_modify id r

/-- Taking the registers of several operands away changes the function in registers only, and
nothing else of the scan. -/
theorem assignAll_eq (ids : List OperandId) :
  ∃ func, ids.foldl (fun s t => s.assign t none) s = { s with func } ∧ s.func.Placed func
  := by
  induction ids generalizing s with
  | nil => exact ⟨s.func, rfl, .refl _⟩
  | cons t ids ih =>
    obtain ⟨func, heq, hplaced⟩ := @ih (s.assign t none)
    exact ⟨func, heq, (s.placed_assign t none).trans hplaced⟩

/-- What the scan knows once it has placed some operands and come to a position.  Of the
operands placed, some own a register or did so once. -/
structure Keeps (f : Function) (pool : List Register) (s : LinearScan)
    (done owners : List OperandId) (now : Nat) : Prop where
  placed : f.Placed s.func
  pool_eq : s.pool = pool
  owner_done : ∀ v ∈ owners, v ∈ done
  started : ∀ v ∈ done, (f.operand v).firstPosition ≤ now
  active_nodup : s.active.Nodup
  active_owner : ∀ v ∈ s.active, v ∈ owners
  /-- Active operands hold registers, each one its own. -/
  held : ∀ v ∈ s.active, ∃ r, s.registerOf v = some r
  distinct : ∀ u ∈ s.active, ∀ v ∈ s.active, s.registerOf u = s.registerOf v → u = v
  inPool : ∀ v ∈ done, ∀ r, s.registerOf v = some r → r ∈ pool
  ended : ∀ v ∈ owners, ∀ r, s.registerOf v = some r → v ∈ s.active ∨ (f.operand v).lastPosition ≤ now
  apart : ∀ u ∈ owners, ∀ v ∈ owners, ∀ r, u ≠ v → s.registerOf u = some r →
    s.registerOf v = some r → ¬ (f.operand u).Overlaps (f.operand v)
  /-- What does not own its register borrows it, and is listed as long as the lender is active. -/
  borrowed : ∀ t ∈ done, t ∉ owners → ∀ r, s.registerOf t = some r → ∃ v ∈ owners,
    s.registerOf v = some r ∧ f.Borrows t v ∧ (v ∈ s.active → t ∈ (s.sharing.at? v).getD [])
  listed : ∀ v, ∀ t ∈ (s.sharing.at? v).getD [], t ∈ done ∧ t ∉ owners
  waiting : ∀ v, f.isTemp v = true ∨ f.isVar v = true → v ∉ done → s.registerOf v = none
  remembered : ∀ x r, s.lastRegister.at? x = some r → r ∈ pool

/-! ### Intervals that end -/

/-- Retiring an operand that is not active any more keeps what the scan knows. -/
theorem Keeps.retire (h : Keeps f pool s done owners now) (hdone : id ∈ done) (hid : id ∉ s.active) :
  Keeps f pool (s.retire id) done owners now
  := by
  have hat : ∀ v, ((s.retire id).sharing.at? v).getD []
      = if v = id then [] else (s.sharing.at? v).getD [] := by
    intro v
    unfold LinearScan.retire
    simp only [Table.at?_without]
    split <;> rfl
  refine { h with borrowed := ?_, listed := ?_, remembered := ?_ }
  · intro t ht hown r hr
    obtain ⟨v, hv, hvr, hborrows, hlisted⟩ := h.borrowed t ht hown r hr
    refine ⟨v, hv, hvr, hborrows, fun hactive => ?_⟩
    have hne : v ≠ id := by
      rintro rfl
      exact hid hactive
    rw [hat, if_neg hne]
    exact hlisted hactive
  · intro v t ht
    rw [hat] at ht
    split at ht
    · cases ht
    · exact h.listed v t ht
  · intro x r hr
    unfold LinearScan.retire at hr
    simp only at hr
    split at hr
    · rename_i var register hvar hregister
      rw [Table.at?_put] at hr
      split at hr
      · cases hr
        exact h.inPool id hdone r hregister
      · exact h.remembered x r hr
    · exact h.remembered x r hr

/-- Retiring several operands that are not active any more keeps what the scan knows. -/
theorem Keeps.retireAll (ids : List OperandId) (h : Keeps f pool s done owners now)
    (hids : ∀ id ∈ ids, id ∈ done ∧ id ∉ s.active) :
  Keeps f pool (ids.foldl LinearScan.retire s) done owners now
  := by
  induction ids generalizing s with
  | nil => exact h
  | cons id ids ih =>
    obtain ⟨hdone, hid⟩ := hids id List.mem_cons_self
    exact ih (h.retire hdone hid) fun id' hid' => hids id' (List.mem_cons_of_mem _ hid')

/-- When the scan goes on to a later position, and gives up the intervals that ended before it, it
knows the same at that position. -/
theorem Keeps.expire (h : Keeps f pool s done owners now) {start : Nat} (hle : now ≤ start) :
  Keeps f pool (s.expire start) done owners start
  := by
  have hsplit : ∀ ended rest : List OperandId, s.active = ended ++ rest →
      (∀ v ∈ ended, (f.operand v).lastPosition ≤ start) →
      Keeps f pool (ended.foldl LinearScan.retire { s with active := rest }) done owners start := by
    intro ended rest hactive hended
    have hrest : ∀ v ∈ rest, v ∈ s.active := fun v hv => hactive ▸ List.mem_append_right _ hv
    have hnodup := h.active_nodup
    rw [hactive, List.nodup_append] at hnodup
    apply Keeps.retireAll
    · refine { h with
        started := ?_
        active_nodup := ?_
        active_owner := ?_
        held := ?_
        distinct := ?_
        ended := ?_
        borrowed := ?_ }
      · exact fun v hv => Nat.le_trans (h.started v hv) hle
      · exact hnodup.2.1
      · exact fun v hv => h.active_owner v (hrest v hv)
      · exact fun v hv => h.held v (hrest v hv)
      · exact fun u hu v hv => h.distinct u (hrest u hu) v (hrest v hv)
      · intro v hv r hr
        rcases h.ended v hv r hr with hmem | hlast
        · rw [hactive] at hmem
          rcases List.mem_append.mp hmem with hmem | hmem
          · exact .inr (hended v hmem)
          · exact .inl hmem
        · exact .inr (Nat.le_trans hlast hle)
      · intro t ht hown r hr
        obtain ⟨v, hv, hvr, hborrows, hlisted⟩ := h.borrowed t ht hown r hr
        exact ⟨v, hv, hvr, hborrows, fun hmem => hlisted (hrest v hmem)⟩
    · intro v hv
      refine ⟨h.owner_done v (h.active_owner v (hactive ▸ List.mem_append_left _ hv)), ?_⟩
      exact fun hmem => hnodup.2.2 v hv v hmem rfl
  unfold LinearScan.expire
  apply hsplit
  · exact (List.prefix_iff_eq_append.mp (List.takeWhile_prefix _)).symm
  · intro v hv
    have hend := List.all_eq_true.mp List.all_takeWhile v hv
    simpa only [endOf, h.placed.lastPosition_eq, decide_eq_true_eq] using hend

/-! ### Registers taken away -/

/-- Registers may be taken away from operands that are not active any more, if they are taken
from borrowers together with their lender. -/
theorem Keeps.take (h : Keeps f pool s done owners now) (hplaced : f.Placed s'.func)
    (hpool : s'.pool = s.pool) (hlast : s'.lastRegister = s.lastRegister)
    (hsub : s'.active.Sublist s.active)
    (hless : ∀ v, s'.registerOf v = none ∨ s'.registerOf v = s.registerOf v)
    (hheld : ∀ v ∈ s'.active, s'.registerOf v = s.registerOf v)
    (hleft : ∀ v ∈ s.active, v ∉ s'.active → s'.registerOf v = none)
    (hlists : ∀ v, s'.sharing.at? v = none ∨ s'.sharing.at? v = s.sharing.at? v)
    (hlist : ∀ v ∈ s'.active, s'.sharing.at? v = s.sharing.at? v)
    (hlenders : ∀ t ∈ done, t ∉ owners → s'.registerOf t ≠ none → ∀ v ∈ owners, f.Borrows t v →
      (v ∈ s.active → t ∈ (s.sharing.at? v).getD []) → s'.registerOf v = s.registerOf v) :
  Keeps f pool s' done owners now
  := by
  have hsome : ∀ {v r}, s'.registerOf v = some r → s.registerOf v = some r := by
    intro v r hr
    rcases hless v with hnone | heq
    · rw [hnone] at hr
      cases hr
    · rw [← heq, hr]
  constructor
  · exact hplaced
  · exact hpool.trans h.pool_eq
  · exact h.owner_done
  · exact h.started
  · exact h.active_nodup.sublist hsub
  · exact fun v hv => h.active_owner v (hsub.mem hv)
  · intro v hv
    rw [hheld v hv]
    exact h.held v (hsub.mem hv)
  · intro u hu v hv
    rw [hheld u hu, hheld v hv]
    exact h.distinct u (hsub.mem hu) v (hsub.mem hv)
  · exact fun v hv r hr => h.inPool v hv r (hsome hr)
  · intro v hv r hr
    rcases h.ended v hv r (hsome hr) with hmem | hend
    · left
      by_contra hnot
      rw [hleft v hmem hnot] at hr
      cases hr
    · exact .inr hend
  · exact fun u hu v hv r hne hur hvr => h.apart u hu v hv r hne (hsome hur) (hsome hvr)
  · intro t ht hown r hr
    obtain ⟨v, hv, hvr, hborrows, hlisted⟩ := h.borrowed t ht hown r (hsome hr)
    have hkeep := hlenders t ht hown (by rw [hr]; exact nofun) v hv hborrows hlisted
    refine ⟨v, hv, hkeep.trans hvr, hborrows, fun hmem => ?_⟩
    rw [hlist v hmem]
    exact hlisted (hsub.mem hmem)
  · intro v t ht
    rcases hlists v with hnone | heq
    · rw [hnone] at ht
      cases ht
    · rw [heq] at ht
      exact h.listed v t ht
  · intro v hvalue hv
    rcases hless v with hnone | heq
    · exact hnone
    · rw [heq]
      exact h.waiting v hvalue hv
  · rw [hlast]
    exact h.remembered

/-- Evicting an operand takes the last active operand and the list of its borrowers away, and
changes the function in registers only. -/
theorem evict_eq (s : LinearScan) (victim : OperandId) :
  ∃ func, s.func.Placed func ∧ s.evict victim
    = { s with
        func
        active := s.active.dropLast
        sharing := s.sharing.without victim
        shared := s.shared - ((s.sharing.at? victim).getD []).length }
  := by
  obtain ⟨func, heq, hplaced⟩ :=
    @assignAll_eq (s.assign victim none) ((s.sharing.at? victim).getD [])
  refine ⟨func, (s.placed_assign victim none).trans hplaced, ?_⟩
  unfold LinearScan.evict
  dsimp only
  rw [heq]
  rfl

/-- Evicting an operand takes its register away and those that were borrowed from it, and no
others. -/
theorem registerOf_evict (s : LinearScan) (victim x : OperandId) :
  (s.evict victim).registerOf x
    = if x = victim ∨ x ∈ (s.sharing.at? victim).getD [] then none else s.registerOf x
  := by
  have h : (s.evict victim).registerOf x
      = (((s.sharing.at? victim).getD []).foldl (fun s t => s.assign t none)
          ([victim].foldl (fun s t => s.assign t none) s)).registerOf x := rfl
  rw [h, registerOf_assignAll, registerOf_assignAll]
  by_cases h₁ : x ∈ (s.sharing.at? victim).getD []
  · simp [h₁]
  · simp [h₁]

/-- When the last active operand gives up its register, and its borrowers with it, what the scan
knows of all others stays true. -/
theorem Keeps.evict (h : Keeps f pool s done owners now) {victim : OperandId}
    (hvictim : s.active.getLast? = some victim) :
  Keeps f pool (s.evict victim) done owners now
  := by
  obtain ⟨rest, hactive⟩ := List.getLast?_eq_some_iff.mp hvictim
  have hmem : victim ∈ s.active := by
    rw [hactive]
    exact List.mem_append_right _ List.mem_cons_self
  obtain ⟨func, hplaced, heq⟩ := s.evict_eq victim
  have hdrop : (s.evict victim).active = rest := by
    rw [heq, hactive, List.dropLast_concat]
  have hnodup := h.active_nodup
  rw [hactive, List.nodup_append] at hnodup
  have hreg := registerOf_evict s victim
  have hkeep : ∀ v ∈ owners, v ≠ victim → (s.evict victim).registerOf v = s.registerOf v := by
    intro v hv hne
    rw [hreg, if_neg]
    rintro (heq | hlisted)
    · exact hne heq
    · exact (h.listed victim v hlisted).2 hv
  have hne : ∀ v ∈ rest, v ≠ victim := fun v hv => hnodup.2.2 v hv victim List.mem_cons_self
  have hsharing : ∀ v,
      (s.evict victim).sharing.at? v = if v = victim then none else s.sharing.at? v := by
    intro v
    rw [heq, Table.at?_without]
  apply h.take
  · rw [heq]
    exact h.placed.trans hplaced
  · rw [heq]
  · rw [heq]
  · rw [heq]
    exact List.dropLast_sublist _
  · intro v
    rw [hreg]
    split
    · exact .inl rfl
    · exact .inr rfl
  · intro v hv
    rw [hdrop] at hv
    apply hkeep v (h.active_owner v _) (hne v hv)
    rw [hactive]
    exact List.mem_append_left _ hv
  · intro v hv hnot
    rw [hdrop] at hnot
    rw [hactive] at hv
    rcases List.mem_append.mp hv with hv | hv
    · exact absurd hv hnot
    · rw [hreg, if_pos (.inl (List.mem_singleton.mp hv))]
  · intro v
    rw [hsharing]
    split
    · exact .inl rfl
    · exact .inr rfl
  · intro v hv
    rw [hdrop] at hv
    rw [hsharing, if_neg (hne v hv)]
  · -- What borrows from the victim is listed, so it has no register any more.
    intro t ht hown hsome v hv hborrows hlisted
    apply hkeep v hv
    rintro rfl
    apply hsome
    rw [hreg, if_pos (.inr (hlisted hmem))]

/-! ### An operand placed -/

/-- An operand becomes active behind those whose intervals end no later. -/
theorem active_activate (s : LinearScan) (id : OperandId) :
  (s.activate id).active = (s.active.takeWhile fun other => s.endOf other ≤ s.endOf id) ++
    id :: s.active.dropWhile fun other => s.endOf other ≤ s.endOf id
  := by
  unfold activate
  rw [List.span_eq_takeWhile_dropWhile]

/-- When an operand becomes active, the active operands are this one and those that were active.
-/
theorem perm_activate (s : LinearScan) (id : OperandId) :
  (s.activate id).active.Perm (id :: s.active)
  := by
  rw [active_activate]
  refine List.perm_middle.trans (.of_eq ?_)
  rw [List.takeWhile_append_dropWhile]

/-- An operand of the function has the register that the scan gives it. -/
theorem Keeps.registerOf_assign (h : Keeps f pool s done owners now) (hlt : id < f.operands.size)
    (r : Option Register) :
  (s.assign id r).registerOf id = r
  := by
  apply registerOf_assign_self
  rwa [h.placed.same.size_eq]

/-- An operand `id` that has not been placed may be counted as placed from its first position on: it
has no register yet, so nothing is claimed of it. -/
theorem Keeps.enter (h : Keeps f pool s done owners now) (hid : id ∉ done)
    (hvalue : f.isTemp id = true ∨ f.isVar id = true) (hfirst : (f.operand id).firstPosition ≤ now) :
  Keeps f pool s (id :: done) owners now
  := by
  have hnone := h.waiting id hvalue hid
  refine { h with
    owner_done := ?_
    started := ?_
    inPool := ?_
    borrowed := ?_
    listed := ?_
    waiting := ?_ }
  · exact fun v hv => List.mem_cons_of_mem _ (h.owner_done v hv)
  · intro v hv
    rcases List.mem_cons.mp hv with rfl | hv
    · exact hfirst
    · exact h.started v hv
  · intro v hv r hr
    rcases List.mem_cons.mp hv with rfl | hv
    · rw [hnone] at hr
      cases hr
    · exact h.inPool v hv r hr
  · intro t ht hown r hr
    rcases List.mem_cons.mp ht with rfl | ht
    · rw [hnone] at hr
      cases hr
    · exact h.borrowed t ht hown r hr
  · intro v t ht
    obtain ⟨hdone, hown⟩ := h.listed v t ht
    exact ⟨List.mem_cons_of_mem _ hdone, hown⟩
  · exact fun v hvalue hv => h.waiting v hvalue (List.not_mem_of_not_mem_cons hv)

/-- An operand that goes without a register. -/
theorem Keeps.leave (h : Keeps f pool s done owners now) (hlt : id < f.operands.size)
    (hnone : s.registerOf id = none) :
  Keeps f pool (s.assign id none) done owners now
  := by
  have hsame : ∀ v, (s.assign id none).registerOf v = s.registerOf v := by
    intro v
    by_cases hv : v = id
    · rw [hv, hnone, h.registerOf_assign hlt]
    · exact registerOf_assign_of_ne hv none
  apply h.take
  · exact h.placed.trans (s.placed_assign id none)
  · rfl
  · rfl
  · exact List.Sublist.refl _
  · exact fun v => .inr (hsame v)
  · exact fun v _ => hsame v
  · exact fun v hv hnot => absurd hv hnot
  · exact fun v => .inr rfl
  · exact fun v _ => rfl
  · exact fun t _ _ _ v _ _ _ => hsame v

section Place

/-- A state in which the operand `id` has been given the register `r`, and all others have the
registers that they had. -/
structure Given (s s' : LinearScan) (id : OperandId) (r : Register) : Prop where
  self : s'.registerOf id = some r
  other : ∀ v, v ≠ id → s'.registerOf v = s.registerOf v

variable {r : Register} (h : Keeps f pool s done owners now) (hgiven : Given s s' id r)
  (hdone : id ∈ done) (hown : id ∉ owners)

include hgiven hown in
/-- An owner has the register that it had: the operand that was given one is no owner yet. -/
theorem Given.owner {v : OperandId} (hv : v ∈ owners) :
  s'.registerOf v = s.registerOf v
  := by
  apply hgiven.other
  apply ne_of_mem_of_not_mem hv hown

include h hgiven in
/-- Registers are of the pool, if the one that was given is. -/
theorem Given.inPool (hpool : r ∈ pool) :
  ∀ v ∈ done, ∀ r', s'.registerOf v = some r' → r' ∈ pool
  := by
  intro v hv r' hr'
  by_cases hid : v = id
  · subst hid
    rw [hgiven.self] at hr'
    cases hr'
    exact hpool
  · rw [hgiven.other v hid] at hr'
    apply h.inPool v hv r' hr'

include h hgiven hdone in
/-- Values that are not placed yet have no register. -/
theorem Given.waiting :
  ∀ v, f.isTemp v = true ∨ f.isVar v = true → v ∉ done → s'.registerOf v = none
  := by
  intro v hvalue hv
  rw [hgiven.other]
  · apply h.waiting v hvalue hv
  · rintro rfl
    exact hv hdone

include h hgiven hown in
/-- The operand that was given a register which no active operand has, and the active operands,
have each their own. -/
theorem Given.distinct (hfree : ∀ v ∈ s.active, s.registerOf v ≠ some r) {u v : OperandId}
    (hu : u = id ∨ u ∈ s.active) (hv : v = id ∨ v ∈ s.active)
    (heq : s'.registerOf u = s'.registerOf v) :
  u = v
  := by
  have hactive : ∀ {w}, w ∈ s.active → s'.registerOf w = s.registerOf w :=
    fun hw => hgiven.owner hown (h.active_owner _ hw)
  rcases hu with rfl | hu
  · rcases hv with rfl | hv
    · rfl
    · rw [hgiven.self, hactive hv] at heq
      exact absurd heq.symm (hfree v hv)
  · rcases hv with rfl | hv
    · rw [hgiven.self, hactive hu] at heq
      exact absurd heq (hfree u hu)
    · rw [hactive hu, hactive hv] at heq
      apply h.distinct u hu v hv heq

include h in
/-- An operand whose interval starts now does not overlap an owner of a register which no active
operand has: that owner is past its end. -/
theorem Keeps.not_overlaps (hfirst : now ≤ (f.operand id).firstPosition)
    (hfree : ∀ v ∈ s.active, s.registerOf v ≠ some r) {v : OperandId} (hv : v ∈ owners)
    (hr : s.registerOf v = some r) :
  ¬ (f.operand id).Overlaps (f.operand v)
  := by
  intro hover
  rcases h.ended v hv r hr with hactive | hend
  · exact hfree v hactive hr
  · have := hover.1
    omega

include h hgiven hown in
/-- The operand that was given a register which no active operand has, and the owners, have
intervals apart where they have a register in common. -/
theorem Given.apart (hfirst : now ≤ (f.operand id).firstPosition)
    (hfree : ∀ v ∈ s.active, s.registerOf v ≠ some r) {u v : OperandId} (hu : u ∈ id :: owners)
    (hv : v ∈ id :: owners) {r' : Register} (hne : u ≠ v) (hur : s'.registerOf u = some r')
    (hvr : s'.registerOf v = some r') :
  ¬ (f.operand u).Overlaps (f.operand v)
  := by
  rcases List.mem_cons.mp hu with rfl | hu'
  · rcases List.mem_cons.mp hv with rfl | hv'
    · exact absurd rfl hne
    · rw [hgiven.self] at hur
      cases hur
      rw [hgiven.owner hown hv'] at hvr
      apply h.not_overlaps hfirst hfree hv' hvr
  · rw [hgiven.owner hown hu'] at hur
    rcases List.mem_cons.mp hv with rfl | hv'
    · rw [hgiven.self] at hvr
      cases hvr
      intro hover
      apply h.not_overlaps hfirst hfree hu' hur hover.symm
    · rw [hgiven.owner hown hv'] at hvr
      apply h.apart u hu' v hv' r' hne hur hvr

include h hgiven hown in
/-- What borrowed its register still does, from the same lender. -/
theorem Given.borrowed {t : OperandId} (ht : t ∈ done) (hid : t ≠ id) (htown : t ∉ owners)
    {r' : Register} (hr' : s'.registerOf t = some r') :
  ∃ v ∈ owners, s'.registerOf v = some r' ∧ f.Borrows t v ∧
    (v ∈ s.active → t ∈ (s.sharing.at? v).getD [])
  := by
  rw [hgiven.other t hid] at hr'
  obtain ⟨v, hv, hvr, hborrows, hlisted⟩ := h.borrowed t ht htown r' hr'
  exact ⟨v, hv, (hgiven.owner hown hv).trans hvr, hborrows, hlisted⟩

variable (hlt : id < f.operands.size)
include h hdone hown hlt

/-- If `v` is active in the register `r`, then a temp `id` that borrows from `v` may have `r` too,
and is listed with `v`. -/
theorem Keeps.share {v : OperandId} {r : Register} (hv : v ∈ s.active) (hr : s.registerOf v = some r)
    (hborrows : f.Borrows id v) :
  Keeps f pool (s.share id v r) done owners now
  := by
  have hgiven : Given s (s.share id v r) id r :=
    ⟨h.registerOf_assign hlt _, fun u hne => registerOf_assign_of_ne hne _⟩
  have hactive : ∀ {u}, u ∈ s.active → (s.share id v r).registerOf u = s.registerOf u :=
    fun hu => hgiven.owner hown (h.active_owner _ hu)
  have hlist : ∀ u, ((s.share id v r).sharing.at? u).getD []
      = if u = v then (s.sharing.at? v).getD [] ++ [id] else (s.sharing.at? u).getD [] := by
    intro u
    unfold LinearScan.share
    simp only [Table.at?_put]
    split
    · rfl
    · rfl
  constructor
  case placed => exact h.placed.trans (s.placed_assign id _)
  case pool_eq => exact h.pool_eq
  case owner_done => exact h.owner_done
  case started => exact h.started
  case active_nodup => exact h.active_nodup
  case active_owner => exact h.active_owner
  case held =>
    intro u hu
    rw [hactive hu]
    exact h.held u hu
  case distinct =>
    intro u hu w hw
    rw [hactive hu, hactive hw]
    exact h.distinct u hu w hw
  case inPool => exact hgiven.inPool h (h.inPool v (h.owner_done v (h.active_owner v hv)) r hr)
  case ended =>
    intro u hu r' hr'
    rw [hgiven.owner hown hu] at hr'
    exact h.ended u hu r' hr'
  case apart =>
    intro u hu w hw r' hne hur hwr
    rw [hgiven.owner hown hu] at hur
    rw [hgiven.owner hown hw] at hwr
    exact h.apart u hu w hw r' hne hur hwr
  case borrowed =>
    intro t ht htown r' hr'
    by_cases hid : t = id
    · subst hid
      rw [hgiven.self] at hr'
      cases hr'
      refine ⟨v, h.active_owner v hv, (hactive hv).trans hr, hborrows, fun _ => ?_⟩
      rw [hlist, if_pos rfl]
      exact List.mem_append_right _ List.mem_cons_self
    · obtain ⟨u, hu, hur, hborrows', hlisted⟩ := hgiven.borrowed h hown ht hid htown hr'
      refine ⟨u, hu, hur, hborrows', fun hmem => ?_⟩
      rw [hlist]
      split
      · rename_i huv
        exact List.mem_append_left _ (huv ▸ hlisted hmem)
      · exact hlisted hmem
  case listed =>
    intro u t ht
    rw [hlist] at ht
    split at ht
    · rcases List.mem_append.mp ht with ht | ht
      · exact h.listed v t ht
      · cases List.mem_singleton.mp ht
        exact ⟨hdone, hown⟩
    · exact h.listed u t ht
  case waiting => exact hgiven.waiting h hdone
  case remembered => exact h.remembered

/-- If no active operand has the register `r` of the pool, then a new operand `id` may own it:
whoever had it before has ended by the first position of `id`. -/
theorem Keeps.own {r : Register} (hfirst : now ≤ (f.operand id).firstPosition)
    (hunlisted : ∀ v, id ∉ (s.sharing.at? v).getD []) (hpool : r ∈ pool)
    (hfree : ∀ v ∈ s.active, s.registerOf v ≠ some r) :
  Keeps f pool ((s.assign id (some r)).activate id) done (id :: owners) now
  := by
  have hperm : ((s.assign id (some r)).activate id).active.Perm (id :: s.active) := perm_activate ..
  have hmem : ∀ {v}, v ∈ ((s.assign id (some r)).activate id).active ↔ v = id ∨ v ∈ s.active :=
    hperm.mem_iff.trans List.mem_cons
  have hgiven : Given s ((s.assign id (some r)).activate id) id r :=
    ⟨h.registerOf_assign hlt _, fun v hne => registerOf_assign_of_ne hne _⟩
  constructor
  case placed => exact h.placed.trans (s.placed_assign id _)
  case pool_eq => exact h.pool_eq
  case owner_done => exact List.forall_mem_cons.mpr ⟨hdone, h.owner_done⟩
  case started => exact h.started
  case active_nodup =>
    rw [hperm.nodup_iff, List.nodup_cons]
    exact ⟨fun hactive => hown (h.active_owner id hactive), h.active_nodup⟩
  case active_owner => exact fun v hv => List.mem_cons.mpr ((hmem.mp hv).imp_right (h.active_owner v))
  case held =>
    intro v hv
    rcases hmem.mp hv with rfl | hv
    · exact ⟨r, hgiven.self⟩
    · rw [hgiven.owner hown (h.active_owner v hv)]
      exact h.held v hv
  case distinct => exact fun u hu v hv => hgiven.distinct h hown hfree (hmem.mp hu) (hmem.mp hv)
  case inPool => exact hgiven.inPool h hpool
  case ended =>
    intro v hv r' hr'
    rcases List.mem_cons.mp hv with rfl | hv
    · exact .inl (hmem.mpr (.inl rfl))
    · rw [hgiven.owner hown hv] at hr'
      exact (h.ended v hv r' hr').imp_left fun hv => hmem.mpr (.inr hv)
  case apart => exact fun u hu v hv r' => hgiven.apart h hown hfirst hfree hu hv
  case borrowed =>
    intro t ht htown r' hr'
    obtain ⟨v, hv, hvr, hborrows, hlisted⟩ := hgiven.borrowed h hown ht (List.ne_of_not_mem_cons htown)
      (List.not_mem_of_not_mem_cons htown) hr'
    refine ⟨v, List.mem_cons_of_mem _ hv, hvr, hborrows, fun hactive => ?_⟩
    rcases hmem.mp hactive with rfl | hactive
    · exact absurd hv hown
    · exact hlisted hactive
  case listed =>
    intro v t ht
    obtain ⟨htdone, htown⟩ := h.listed v t ht
    refine ⟨htdone, fun hcons => ?_⟩
    rcases List.mem_cons.mp hcons with rfl | hmem
    · exact hunlisted v ht
    · exact htown hmem
  case waiting => exact hgiven.waiting h hdone
  case remembered => exact h.remembered

end Place

end LinearScan

end StackCompiler.IR
