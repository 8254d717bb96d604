import Mathlib.Data.List.Induction
import StackCompiler.Proofs.Code.Operands
import StackCompiler.Proofs.Semantics.Machine

/-!
# Positions

What `Function.fetch` finds after code is edited, and how `Function.live` and the label
table follow it.  Everything that is said about code below is said through `fetch`, so it
does not see the difference between a position that is marked for removal and one that
has been dropped.
-/

namespace StackCompiler.IR

theorem Inst.label?_eq_some {inst : Inst} {l : Label} :
  inst.label? = some l ↔ inst = .label l
  := by
  cases inst <;> simp [label?]

namespace Function

variable {f : Function}

/-! ### Fetching -/

/-- An instruction is fetched where it stands in the code and is not marked for removal. -/
theorem fetch_eq_some {pos : Nat} {inst : Inst} :
  f.fetch pos = some inst ↔ f.isRemoved pos = false ∧ f.code[pos]? = some inst
  := by
  unfold fetch inst?
  split
  · simp_all
  · simp_all

/-- Instructions are fetched at positions of the code only. -/
theorem lt_size_of_fetch {pos : Nat} {inst : Inst} (h : f.fetch pos = some inst) :
  pos < f.size
  := by
  obtain ⟨-, h⟩ := fetch_eq_some.mp h
  apply Array.getElem?_eq_some_iff.mp h |>.1

theorem fetch_of_pending_nil (h : f.pending = []) (pos : Nat) :
  f.fetch pos = f.code[pos]?
  := by
  simp [fetch, isRemoved, inst?, h]

/-- Replacing an instruction changes what is found at its position only. -/
theorem fetch_replace {pos : Nat} {old : Inst} (h : f.fetch pos = some old) (inst : Inst)
    (other : Nat) :
  (f.replace pos inst).fetch other = if other = pos then some inst else f.fetch other
  := by
  obtain ⟨hr, hold⟩ := fetch_eq_some.mp h
  have hlt := lt_size_of_fetch h
  unfold size at hlt
  have hf : (f.replace pos inst).fetch other
      = if f.isRemoved other then none else (f.code.setIfInBounds pos inst)[other]? := rfl
  rw [hf, Array.getElem?_setIfInBounds]
  by_cases e : other = pos
  · subst e
    simp [hr, hlt]
  · have e' : ¬ pos = other := fun h => e h.symm
    simp only [e, e', if_false]
    rfl

/-- Removing an instruction marks its position, and no other. -/
theorem isRemoved_remove (pos other : Nat) :
  (f.remove pos).isRemoved other = (decide (other = pos) || f.isRemoved other)
  := by
  simp only [isRemoved, remove]
  rw [Bool.eq_iff_iff]
  simp

/-- Removing an instruction leaves nothing at its position. -/
theorem fetch_remove (pos other : Nat) :
  (f.remove pos).fetch other = if other = pos then none else f.fetch other
  := by
  simp only [fetch, isRemoved_remove]
  by_cases e : other = pos
  · simp [e]
  · simp only [e, decide_false, Bool.false_or, if_false]
    rfl

/-- What is left after removing an instruction was there before. -/
theorem fetch_of_fetch_remove {pos p : Nat} {i : Inst} (h : (f.remove pos).fetch p = some i) :
  f.fetch p = some i ∧ p ≠ pos
  := by
  rw [fetch_remove] at h
  split at h
  · cases h
  · exact ⟨h, ‹_›⟩

/-- A change at one position keeps the instructions that are not the one there. -/
theorem fetch_kept {f' : Function} {pos p : Nat} {new : Option Inst} {old i : Inst}
    (hview : ∀ q, f'.fetch q = if q = pos then new else f.fetch q) (hold : f.fetch pos = some old)
    (hi : f.fetch p = some i) (hne : i ≠ old) :
  f'.fetch p = some i
  := by
  rw [hview, if_neg ?_, hi]
  rintro rfl
  rw [hold] at hi
  exact hne (Option.some.inj hi).symm

@[simp]
theorem size_replace (pos : Nat) (inst : Inst) :
  (f.replace pos inst).size = f.size
  := by
  simp [size, replace]

@[simp]
theorem size_remove (pos : Nat) :
  (f.remove pos).size = f.size
  := rfl

@[simp]
theorem operand_replace (pos : Nat) (inst : Inst) (id : OperandId) :
  (f.replace pos inst).operand id = f.operand id
  := rfl

/-! ### The instructions that are left -/

/-- The live instructions are those that are fetched, with their positions. -/
theorem mem_live {pos : Nat} {inst : Inst} :
  (pos, inst) ∈ f.live ↔ f.fetch pos = some inst
  := by
  simp only [live, List.mem_filterMap, Prod.exists, List.mem_zipIdx_iff_getElem?]
  rw [fetch_eq_some]
  constructor
  · rintro ⟨i, p, hi, h⟩
    split at h
    · cases h
    · cases h
      rw [Array.getElem?_toList] at hi
      simp_all
  · rintro ⟨hr, hi⟩
    use inst, pos
    constructor
    · rw [Array.getElem?_toList]
      apply hi
    · simp [hr]

/-- The positions of the instructions that are left are in ascending order. -/
theorem pairwise_live (f : Function) :
  f.live.Pairwise fun a b => a.1 < b.1
  := by
  unfold live
  rw [List.pairwise_filterMap]
  have h : f.code.toList.zipIdx.Pairwise fun a b => a.2 < b.2 := by
    rw [List.pairwise_iff_getElem]
    intro i j hi hj hij
    simpa using hij
  apply h.imp
  rintro ⟨i, p⟩ ⟨j, q⟩ hpq x hx y hy
  by_cases hp : f.isRemoved p
  · simp [hp] at hx
  · by_cases hq : f.isRemoved q
    · simp [hq] at hy
    · simp only [hp, hq, Bool.false_eq_true, if_false, Option.some.injEq] at hx hy
      rw [← hx, ← hy]
      apply hpq

/-- If nothing is marked for removal, all instructions of the code are live. -/
theorem live_of_pending_nil (h : f.pending = []) :
  f.live.map (·.2) = f.code.toList
  := by
  have hl : f.live = f.code.toList.zipIdx.map fun p => (p.2, p.1) := by
    unfold live
    rw [← List.filterMap_eq_map]
    congr 1
    funext p
    simp [isRemoved, h]
  rw [hl, List.map_map]
  have hf : (fun p : Nat × Inst => p.2) ∘ (fun p : Inst × Nat => (p.2, p.1)) = Prod.fst := rfl
  rw [hf, List.zipIdx_map_fst]

/-! ### Label tables -/

/-- The label table of code with one instruction more has the label that this instruction is, at
its position. -/
theorem labelsOf_append_singleton (code : List Inst) (inst : Inst) :
  labelsOf (code ++ [inst])
    = match inst.label? with
      | some l => (labelsOf code).put l code.length
      | none => labelsOf code
  := by
  cases hl : inst.label? with
  | none => simp [labelsOf, List.zipIdx_append, hl]
  | some l => simp [labelsOf, List.zipIdx_append, hl]

/-- The label table gives the last position of each label. -/
theorem at?_labelsOf (code : List Inst) (l : Label) (pos : Nat) :
  (labelsOf code).at? l = some pos
    ↔ code[pos]? = some (.label l) ∧ ∀ q, code[q]? = some (.label l) → q ≤ pos
  := by
  induction code using List.reverseRecOn with
  | nil => simp [labelsOf]
  | append_singleton code inst ih =>
    have hget : ∀ q i, (code ++ [inst])[q]? = some i
        ↔ code[q]? = some i ∨ (q = code.length ∧ inst = i) := by
      intro q i
      rw [List.getElem?_append]
      split
      · rename_i hq
        have : q ≠ code.length := Nat.ne_of_lt hq
        simp [this]
      · rename_i hq
        rw [List.getElem?_singleton]
        have hnone : code[q]? = none := List.getElem?_eq_none (Nat.le_of_not_lt hq)
        rw [hnone]
        split
        · have : q = code.length := by omega
          simp [this]
        · have : q ≠ code.length := by omega
          simp [this]
    have hlt : ∀ q i, code[q]? = some i → q < code.length := fun q i h =>
      (List.getElem?_eq_some_iff.mp h).1
    rw [labelsOf_append_singleton]
    simp only [hget]
    cases hi : inst.label? with
    | none =>
      have hne : inst ≠ .label l := by
        intro e
        rw [Inst.label?_eq_some.mpr e] at hi
        cases hi
      simp only [hne, and_false, or_false]
      apply ih
    | some k =>
      have e := Inst.label?_eq_some.mp hi
      subst e
      simp only [Table.at?_put]
      split
      · rename_i hk
        subst hk
        constructor
        · intro h
          cases h
          constructor
          · exact Or.inr ⟨rfl, rfl⟩
          · rintro q (h | h)
            · exact Nat.le_of_lt (hlt q _ h)
            · exact Nat.le_of_eq h.1
        · rintro ⟨h | h, hq⟩
          · have h₁ := hlt pos _ h
            have h₂ := hq code.length (Or.inr ⟨rfl, rfl⟩)
            omega
          · rw [h.1]
      · rename_i hk
        have hk' : ∀ q, ¬ (q = code.length ∧ Inst.label k = Inst.label l) := by
          rintro q ⟨-, e⟩
          cases e
          apply hk rfl
        simp only [hk', or_false]
        apply ih

end Function

end StackCompiler.IR
