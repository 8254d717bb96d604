import StackCompiler.Proofs.Allocation.Separation
import StackCompiler.Proofs.Allocation.Success

/-!
# No spills without need

Where the interval of an operand starts, the scan has ended every interval that ends there or
before, because the active operands are in the order of their ends.  What is still active are
rivals of the operand: others that are live at that place.  If these are always fewer than the
registers, there is always a free one and the scan never spills.
-/

namespace StackCompiler.IR

/-- The variables and temps with an interval. -/
def Function.intervalIds (f : Function) : List OperandId := f.values.filter fun id => (f.operand id).isLive

/-- The other variables and temps that are live where the interval of an operand starts. -/
def Function.rivals (f : Function) (id : OperandId) : List OperandId :=
  f.intervalIds.filter fun other =>
    other ≠ id ∧ (f.operand other).firstPosition ≤ (f.operand id).firstPosition ∧
      (f.operand id).firstPosition < (f.operand other).lastPosition

namespace LinearScan

variable {f : Function} {pool : List Register} {s : LinearScan} {done : List OperandId}
  {id : OperandId}

/-! ### The order of the active operands -/

/-- What is left of operands in the order of their ends, once the first ones are dropped up to a
position, ends after it. -/
theorem lt_of_mem_dropWhile {stop : OperandId → Nat} {ids : List OperandId}
    (hsorted : ids.Pairwise fun a b => stop a ≤ stop b) {now : Nat}
    (hid : id ∈ ids.dropWhile fun a => stop a ≤ now) :
  now < stop id
  := by
  induction ids with
  | nil => cases hid
  | cons a ids ih =>
    obtain ⟨hle, hsorted⟩ := List.pairwise_cons.mp hsorted
    rw [List.dropWhile_cons] at hid
    split at hid
    · exact ih hsorted hid
    · rename_i hnow
      rw [decide_eq_true_eq, Nat.not_le] at hnow
      rcases List.mem_cons.mp hid with rfl | hid
      · exact hnow
      · exact Nat.lt_of_lt_of_le hnow (hle id hid)

/-- Retiring operands changes neither the function nor which operands are active. -/
theorem retireAll_eq (ids : List OperandId) (s : LinearScan) :
  ∃ lastRegister sharing, ids.foldl retire s = { s with lastRegister, sharing }
  := by
  induction ids generalizing s with
  | nil => exact ⟨_, _, rfl⟩
  | cons id ids ih => exact ih (s.retire id)

/-- Intervals end from the front of the active operands. -/
theorem expire_eq (s : LinearScan) (start : Nat) :
  ∃ lastRegister sharing, s.expire start
    = { s with active := s.active.dropWhile fun id => s.endOf id ≤ start, lastRegister, sharing }
  := by
  have hdrop : s.active.drop (s.active.takeWhile fun id => s.endOf id ≤ start).length
      = s.active.dropWhile fun id => s.endOf id ≤ start := by
    calc
      _ = ((s.active.takeWhile fun id => s.endOf id ≤ start) ++
            s.active.dropWhile fun id => s.endOf id ≤ start).drop _ := by rw [List.takeWhile_append_dropWhile]
      _ = _ := List.drop_left
  unfold expire
  dsimp only
  rw [hdrop]
  exact retireAll_eq ..

/-! ### A scan without spills -/

/-- What the scan knows if every operand that it has placed got a register. -/
structure Serves (f : Function) (pool : List Register) (s : LinearScan) (done : List OperandId) :
    Prop where
  placed : f.Placed s.func
  pool_eq : s.pool = pool
  active_done : ∀ v ∈ s.active, v ∈ done
  active_nodup : s.active.Nodup
  sorted : s.active.Pairwise fun a b => (f.operand a).lastPosition ≤ (f.operand b).lastPosition
  held : ∀ v ∈ done, ∃ r, s.registerOf v = some r

namespace Serves

theorem endOf_eq (h : Serves f pool s done) (id : OperandId) :
  s.endOf id = (f.operand id).lastPosition
  := h.placed.lastPosition_eq id

/-- Once intervals have ended at a position, the active ones go on after it. -/
theorem expire (h : Serves f pool s done) (start : Nat) :
  Serves f pool (s.expire start) done ∧
    ∀ v ∈ (s.expire start).active, start < (f.operand v).lastPosition
  := by
  obtain ⟨lastRegister, sharing, heq⟩ := s.expire_eq start
  rw [heq]
  simp only [h.endOf_eq]
  have hsub := List.dropWhile_sublist (fun id => decide ((f.operand id).lastPosition ≤ start)) (l := s.active)
  constructor
  · exact ⟨h.placed, h.pool_eq, fun v hv => h.active_done v (hsub.mem hv), h.active_nodup.sublist hsub,
      h.sorted.sublist hsub, h.held⟩
  · exact fun v hv => lt_of_mem_dropWhile h.sorted hv

/-- An operand that gets a register. -/
theorem assign (h : Serves f pool s done) (hlt : id < f.operands.size) (r : Register) :
  Serves f pool (s.assign id (some r)) (id :: done)
  := by
  refine ⟨h.placed.trans (s.placed_assign id _), h.pool_eq, ?_, h.active_nodup, h.sorted, fun v hv => ?_⟩
  · exact fun v hv => List.mem_cons_of_mem _ (h.active_done v hv)
  · by_cases hne : v = id
    · subst hne
      exact ⟨r, registerOf_assign_self (h.placed.same.size_eq ▸ hlt) _⟩
    · rw [registerOf_assign_of_ne hne]
      exact h.held v (List.mem_of_ne_of_mem hne hv)

/-- What the scan has served it has served when an operand becomes active. -/
theorem activate (h : Serves f pool s done) (hdone : id ∈ done) (hid : id ∉ s.active) :
  Serves f pool (s.activate id) done
  := by
  have hactive := s.active_activate id
  simp only [h.endOf_eq] at hactive
  have hsplit := List.takeWhile_append_dropWhile
    (p := fun v => decide ((f.operand v).lastPosition ≤ (f.operand id).lastPosition)) (l := s.active)
  have hperm := s.perm_activate id
  refine ⟨h.placed, h.pool_eq, fun v hv => ?_, ?_, ?_, h.held⟩
  · rcases List.mem_cons.mp (hperm.mem_iff.mp hv) with rfl | hv
    · exact hdone
    · exact h.active_done v hv
  · exact hperm.nodup_iff.mpr (List.nodup_cons.mpr ⟨hid, h.active_nodup⟩)
  · have hsorted := h.sorted
    rw [← hsplit, List.pairwise_append] at hsorted
    obtain ⟨hbefore, hafter, hacross⟩ := hsorted
    have hle : ∀ v ∈ s.active.takeWhile
          fun v => decide ((f.operand v).lastPosition ≤ (f.operand id).lastPosition),
        (f.operand v).lastPosition ≤ (f.operand id).lastPosition :=
      fun v hv => of_decide_eq_true (List.all_eq_true.mp List.all_takeWhile v hv)
    rw [hactive, List.pairwise_append, List.pairwise_cons]
    refine ⟨hbefore, ⟨fun v hv => ?_, hafter⟩, fun u hu v hv => ?_⟩
    · exact Nat.le_of_lt (lt_of_mem_dropWhile h.sorted hv)
    · rcases List.mem_cons.mp hv with rfl | hv
      · exact hle u hu
      · exact hacross u hu v hv

/-- Operands that are active past the start of another one are its rivals. -/
theorem active_length_le (h : Serves f pool s done) (hid : id ∉ done)
    (hdone : ∀ v ∈ done, v ∈ f.intervalIds ∧ (f.operand v).firstPosition ≤ (f.operand id).firstPosition)
    (hpast : ∀ v ∈ s.active, (f.operand id).firstPosition < (f.operand v).lastPosition) :
  s.active.length ≤ (f.rivals id).length
  := by
  have hsub : s.active ⊆ f.rivals id := by
    intro v hv
    obtain ⟨hvalue, hfirst⟩ := hdone v (h.active_done v hv)
    have hne : v ≠ id := by
      rintro rfl
      exact hid (h.active_done v hv)
    exact List.mem_filter.mpr ⟨hvalue, decide_eq_true ⟨hne, hfirst, hpast v hv⟩⟩
  exact (h.active_nodup.subperm hsub).length_le

/-- An operand with fewer rivals than there are registers gets one. -/
theorem place (h : Serves f pool s done) (hpool : pool.Nodup) (hlt : id < f.operands.size) (hid : id ∉ done)
    (hdone : ∀ v ∈ done, v ∈ f.intervalIds ∧ (f.operand v).firstPosition ≤ (f.operand id).firstPosition)
    (hroom : (f.rivals id).length < pool.length) :
  ∃ s', s.place id = .ok s' ∧ Serves f pool s' (id :: done)
  := by
  obtain ⟨hexpire, hpast⟩ := h.expire (f.operand id).firstPosition
  unfold LinearScan.place
  rw [h.placed.firstPosition_eq]
  generalize s.expire (f.operand id).firstPosition = s₁ at hexpire hpast
  have hactive := hexpire.active_length_le hid hdone hpast
  dsimp only
  split
  · exact ⟨_, rfl, { hexpire.assign hlt _ with }⟩
  · rw [if_pos (by rw [hexpire.pool_eq]; omega)]
    obtain ⟨r, hr⟩ := exists_freeRegister (hexpire.pool_eq ▸ hpool) (by rw [hexpire.pool_eq]; omega) id
    rw [hr]
    refine ⟨_, rfl, (hexpire.assign hlt r).activate List.mem_cons_self ?_⟩
    exact fun hmem => hid (hexpire.active_done id hmem)

/-- Operands in the order of their starts, each with fewer rivals than there are registers. -/
theorem placeAll (ids : List OperandId) (h : Serves f pool s done) (hpool : pool.Nodup)
    (hids : ∀ id ∈ ids, id ∈ f.intervalIds) (hnodup : ids.Nodup) (hnew : ∀ id ∈ ids, id ∉ done)
    (hdone : ∀ v ∈ done, v ∈ f.intervalIds)
    (hle : ∀ id ∈ ids, ∀ v ∈ done, (f.operand v).firstPosition ≤ (f.operand id).firstPosition)
    (horder : ids.Pairwise fun a b => (f.operand a).firstPosition ≤ (f.operand b).firstPosition)
    (hroom : ∀ id ∈ ids, (f.rivals id).length < pool.length) :
  ∃ s', ids.foldlM LinearScan.place s = .ok s' ∧ Serves f pool s' (ids.reverse ++ done)
  := by
  induction ids generalizing s done with
  | nil => exact ⟨s, rfl, h⟩
  | cons id ids ih =>
    obtain ⟨hid, hids⟩ := List.forall_mem_cons.mp hids
    obtain ⟨hnot, hnew⟩ := List.forall_mem_cons.mp hnew
    obtain ⟨hfirst, hle⟩ := List.forall_mem_cons.mp hle
    obtain ⟨hhead, hroom⟩ := List.forall_mem_cons.mp hroom
    rw [List.nodup_cons] at hnodup
    rw [List.pairwise_cons] at horder
    have hlt : id < f.operands.size :=
      List.mem_range.mp (List.mem_filter.mp (List.mem_filter.mp hid).1).1
    obtain ⟨s₁, hplace, h₁⟩ := h.place hpool hlt hnot (fun v hv => ⟨hdone v hv, hfirst v hv⟩) hhead
    rw [List.foldlM_cons, hplace, List.reverse_cons, List.append_assoc, List.singleton_append]
    apply ih h₁ hids hnodup.2
    · intro other hother hmem
      rcases List.mem_cons.mp hmem with rfl | hmem
      · exact hnodup.1 hother
      · exact hnew other hother hmem
    · exact List.forall_mem_cons.mpr ⟨hid, hdone⟩
    · exact fun other hother => List.forall_mem_cons.mpr ⟨horder.1 other hother, hle other hother⟩
    · exact horder.2
    · exact hroom

end Serves

end LinearScan

namespace Function

variable {f g : Function} {pool : List Register}

/-- The operands with an interval are the same if only registers differ. -/
theorem Placed.intervalIds_eq (h : f.Placed g) :
  g.intervalIds = f.intervalIds
  := by
  unfold intervalIds values operandIds
  simp only [h.same.size_eq, h.isTemp_eq, h.isVar_eq, h.isLive_eq]

theorem mem_placementOrder_iff {id : OperandId} :
  id ∈ f.placementOrder ↔ id ∈ f.intervalIds
  := List.mem_mergeSort

/-- Operands that all have registers count for no spills. -/
theorem spilled_summarize (hregister : ∀ id ∈ f.intervalIds, ∃ r, (f.operand id).register = some r)
    (shared : Nat) :
  (f.summarize shared).spilledVars = 0 ∧ (f.summarize shared).spilledTemps = 0
  := by
  unfold summarize
  refine List.foldlRecOn (motive := fun a : Allocation => a.spilledVars = 0 ∧ a.spilledTemps = 0) _ _
    ⟨rfl, rfl⟩ ?_
  intro a ha id hid
  obtain ⟨r, hr⟩ := hregister id hid
  rw [hr]
  exact ha

/-- If fewer operands than there are registers are live besides an operand where its interval
starts, for every operand, allocation succeeds and gives each of them a register. -/
theorem allocate_of_rivals_lt (f : Function) (hpool : pool.Nodup)
    (hroom : ∀ id ∈ f.intervalIds, (f.rivals id).length < pool.length) :
  ∃ g a, f.allocate pool = .ok (g, a) ∧
    (∀ id ∈ f.intervalIds, ∃ r, (g.operand id).register = some r) ∧
    a.spilledVars = 0 ∧ a.spilledTemps = 0
  := by
  have hclear := f.placed_clearRegisters
  have hstart : LinearScan.Serves f pool { func := f.clearRegisters, pool } [] := by
    refine ⟨hclear, rfl, ?_, List.nodup_nil, .nil, ?_⟩
    · exact fun v hv => hv
    · exact fun v hv => absurd hv List.not_mem_nil
  have hids : ∀ id ∈ f.clearRegisters.placementOrder, id ∈ f.intervalIds := by
    intro id hid
    rwa [mem_placementOrder_iff, hclear.intervalIds_eq] at hid
  have horder := f.clearRegisters.placementOrder_sorted
  simp only [hclear.firstPosition_eq] at horder
  obtain ⟨s, hscan, hserves⟩ := hstart.placeAll _ hpool hids (placementOrder_nodup _)
    (fun _ _ => List.not_mem_nil) (fun v hv => absurd hv List.not_mem_nil)
    (fun _ _ v hv => absurd hv List.not_mem_nil) horder fun id hid => hroom id (hids id hid)
  have hregister : ∀ id ∈ f.intervalIds, ∃ r, (s.func.operand id).register = some r := by
    intro id hid
    apply hserves.held
    rw [List.append_nil, List.mem_reverse, mem_placementOrder_iff, hclear.intervalIds_eq]
    exact hid
  refine ⟨s.func, s.func.summarize s.shared, ?_, hregister, ?_⟩
  · unfold allocate
    rw [show f.scan pool = .ok s from hscan]
  · exact spilled_summarize (hserves.placed.intervalIds_eq ▸ hregister) _

/-- Three registers are enough for two rivals. -/
theorem allocate_of_rivals_lt_countdown :
  ∃ f f' g a, lower .countdown = .ok f ∧ f.intervals = .ok f' ∧ f'.rivals 7 = [0, 5] ∧
    (∀ id ∈ f'.intervalIds, (f'.rivals id).length < 3) ∧ f'.allocate [.r12, .r13, .r14] = .ok (g, a) ∧
    (∀ id ∈ f'.intervalIds, ∃ r, (g.operand id).register = some r) ∧
    a.spilledVars = 0 ∧ a.spilledTemps = 0
  := by
  have hok : ((lower .countdown).toOption.any fun f => f.intervals.isOk) = true := by decide +kernel
  have hrivals : ((lower .countdown).toOption.any fun f => f.intervals.toOption.any fun f' =>
      decide (f'.rivals 7 = [0, 5]) && f'.intervalIds.all fun id => (f'.rivals id).length < 3) = true := by
    decide +kernel
  cases hlower : lower .countdown with
  | error e =>
    rw [hlower] at hok
    cases hok
  | ok f =>
    rw [hlower] at hok hrivals
    obtain ⟨f', hintervals⟩ := exists_eq_ok hok
    simp only [hintervals, Except.toOption, Option.any_some, Bool.and_eq_true, decide_eq_true_eq,
      List.all_eq_true] at hrivals
    have hpool : [Register.r12, .r13, .r14].Nodup := by decide
    obtain ⟨g, a, h⟩ := f'.allocate_of_rivals_lt hpool hrivals.2
    exact ⟨f, f', g, a, rfl, hintervals, hrivals.1, hrivals.2, h⟩

end Function

end StackCompiler.IR
