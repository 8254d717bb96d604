import Mathlib.Data.List.Perm.Subperm
import StackCompiler.Proofs.Allocation.Ownership
import StackCompiler.Proofs.Passes.Intervals

/-!
# The pool suffices

A scan asks for a free register only while fewer operands are active than there are registers,
and an active operand takes one register.  So a pool without repetitions is never used up.
-/

namespace StackCompiler.IR

namespace LinearScan

variable {s : LinearScan} {id : OperandId}

/-- Giving up intervals that have ended leaves the pool as it is. -/
theorem pool_expire (s : LinearScan) (start : Nat) :
  (s.expire start).pool = s.pool
  := by
  have hretire : ∀ (ids : List OperandId) (s : LinearScan), (ids.foldl retire s).pool = s.pool := by
    intro ids
    induction ids with
    | nil => exact fun _ => rfl
    | cons id ids ih => exact fun s => ih (s.retire id)
  exact hretire _ _

/-- Spilling leaves the pool as it is. -/
theorem pool_spill (s : LinearScan) (id : OperandId) :
  (s.spill id).pool = s.pool
  := by
  unfold spill
  split
  · rename_i victim hlast
    split
    · obtain ⟨func, -, heq⟩ := s.evict_eq victim
      change (s.evict victim).pool = s.pool
      rw [heq]
    · rfl
  · rfl

/-- There is a free register while fewer operands are active than the pool has registers. -/
theorem exists_freeRegister (hnodup : s.pool.Nodup) (hlt : s.active.length < s.pool.length)
    (id : OperandId) :
  ∃ r, s.freeRegister id = .ok r
  := by
  have hpool : ∃ r, freeRegister.fromPool s id s.inUse = .ok r := by
    unfold freeRegister.fromPool
    cases hfind : s.pool.find? fun register => !s.inUse.contains register with
    | some r => exact ⟨r, rfl⟩
    | none =>
      -- Otherwise there are as many registers in use as the pool has.
      rw [List.find?_eq_none] at hfind
      have hsub : s.pool ⊆ s.inUse := by
        intro r hr
        simpa using hfind r hr
      have hle := (hnodup.subperm hsub).length_le
      have huse : s.inUse.length ≤ s.active.length := List.length_filterMap_le ..
      omega
  unfold freeRegister
  dsimp only
  split
  · split
    · exact hpool
    · exact ⟨_, rfl⟩
  · exact hpool

/-- Every operand can be placed, if the pool has no register twice. -/
theorem exists_place (hnodup : s.pool.Nodup) (id : OperandId) :
  ∃ s', s.place id = .ok s' ∧ s'.pool = s.pool
  := by
  unfold place
  have hexpire := s.pool_expire (s.func.operand id).firstPosition
  generalize s.expire (s.func.operand id).firstPosition = s₁ at hexpire
  dsimp only
  split
  · exact ⟨_, rfl, hexpire⟩
  · split
    · rename_i hlt
      obtain ⟨r, hr⟩ := exists_freeRegister (hexpire ▸ hnodup) hlt id
      rw [hr]
      exact ⟨_, rfl, hexpire⟩
    · exact ⟨_, rfl, (s₁.pool_spill id).trans hexpire⟩

end LinearScan

/-- Allocation succeeds with any registers that are all different. -/
theorem Function.exists_allocate (f : Function) {pool : List Register} (hnodup : pool.Nodup) :
  ∃ g a, f.allocate pool = .ok (g, a)
  := by
  have hplace : ∀ s : LinearScan, s.pool = pool → ∀ id ∈ f.clearRegisters.placementOrder,
      ∃ s', s.place id = .ok s' ∧ s'.pool = pool := by
    rintro s rfl id -
    exact LinearScan.exists_place hnodup id
  obtain ⟨s, hs, -⟩ := Attempt.exists_foldlM (fun s => s.pool = pool) LinearScan.place
    f.clearRegisters.placementOrder (s := { func := f.clearRegisters, pool }) rfl hplace
  unfold allocate
  rw [show f.scan pool = .ok s from hs]
  exact ⟨_, _, rfl⟩

end StackCompiler.IR
