import StackCompiler.Proofs.Lowering.Emission

/-!
# The course of lowering

`Lowering.upTo f k` is the state after the first `k` instructions of `f`.  When `f` is
accepted there is such a state for every `k`, each extends the ones before it, and
`upTo_induction` proves what every step keeps.
-/

namespace StackCompiler.IR

open Bytecode (Instruction)

namespace Lowering

variable {f : Bytecode.Function}

/-- The state of lowering after a number of instructions. -/
def upTo (f : Bytecode.Function) (k : Nat) : Except CompileError Lowering :=
  (f.instructions.zipIdx.take k).foldlM (stepInstruction f) (start f)

theorem upTo_zero (f : Bytecode.Function) :
  upTo f 0 = .ok (start f)
  := rfl

/-- After all instructions lowering has gone through the whole function. -/
theorem upTo_length (f : Bytecode.Function) :
  upTo f f.instructions.length = f.instructions.zipIdx.foldlM (stepInstruction f) (start f)
  := by
  unfold upTo
  rw [List.take_of_length_le (by simp)]

/-- The state after one instruction more is that after a step with this instruction. -/
theorem upTo_succ {k : Nat} {i : Instruction} (h : f.instructions[k]? = some i) :
  upTo f (k + 1) = upTo f k >>= fun s => s.stepInstruction f (i, k)
  := by
  have hz : f.instructions.zipIdx[k]? = some (i, k) := by
    simp [List.getElem?_zipIdx, h]
  unfold upTo
  rw [List.take_add_one, hz, List.foldlM_append]
  simp only [Option.toList_some, List.foldlM_cons, List.foldlM_nil, bind_pure]

/-- A state after one more instruction comes from a state by one step. -/
theorem upTo_succ_eq_ok {k : Nat} {i : Instruction} {s' : Lowering}
    (h : f.instructions[k]? = some i) (hs' : upTo f (k + 1) = .ok s') :
  ∃ s operation u, upTo f k = .ok s ∧ Operation.ofInstruction f k i = .ok operation ∧
    s.step u operation = .ok s'
  := by
  rw [upTo_succ h] at hs'
  cases hs : upTo f k with
  | error e =>
    rw [hs] at hs'
    cases hs'
  | ok s =>
    rw [hs] at hs'
    change s.stepInstruction f (i, k) = .ok s' at hs'
    unfold stepInstruction at hs'
    cases ho : Operation.ofInstruction f k i with
    | error e =>
      simp only [ho] at hs'
      cases hs'
    | ok operation =>
      simp only [ho] at hs'
      exact ⟨s, operation, _, rfl, rfl, hs'⟩

/-- Lowering that comes through has a state before each instruction. -/
theorem exists_upTo {k n : Nat} {s : Lowering} (hkn : k ≤ n) (hs : upTo f n = .ok s) :
  ∃ s', upTo f k = .ok s'
  := by
  have hsplit : upTo f n
      = upTo f k >>= fun s' => ((f.instructions.zipIdx.take n).drop k).foldlM (stepInstruction f) s' := by
    have htake : f.instructions.zipIdx.take k = (f.instructions.zipIdx.take n).take k := by
      rw [List.take_take, Nat.min_eq_left hkn]
    unfold upTo
    rw [htake, ← List.foldlM_append, List.take_append_drop]
  rw [hsplit] at hs
  cases h : upTo f k with
  | error e =>
    rw [h] at hs
    cases hs
  | ok s' => exact ⟨s', rfl⟩

/-- What holds at the start and is kept by every operation holds all along. -/
theorem upTo_induction {P : Nat → Lowering → Prop} (h₀ : P 0 (start f))
    (hstep : ∀ k i s s' operation operand dest dest' insts,
      P k s → upTo f k = .ok s → upTo f (k + 1) = .ok s' → f.instructions[k]? = some i →
      Operation.ofInstruction f k i = .ok operation →
      Emission s operation s' operand dest dest' insts → P (k + 1) s')
    {k : Nat} {s : Lowering} (hk : k ≤ f.instructions.length) (hs : upTo f k = .ok s) :
  P k s
  := by
  induction k generalizing s with
  | zero =>
    rw [upTo_zero] at hs
    cases hs
    exact h₀
  | succ k ih =>
    obtain ⟨i, hi⟩ : ∃ i, f.instructions[k]? = some i :=
      ⟨_, List.getElem?_eq_getElem (Nat.lt_of_succ_le hk)⟩
    obtain ⟨s₁, operation, u, hs₁, ho, hstep'⟩ := upTo_succ_eq_ok hi hs
    obtain ⟨operand, dest, dest', insts, hem⟩ := step_emits hstep'
    exact hstep k i s₁ s operation operand dest dest' insts (ih (Nat.le_of_succ_le hk) hs₁)
      hs₁ hs hi ho hem

/-- Later states extend earlier ones. -/
theorem extends_upTo {j k : Nat} {s s' : Lowering} (hjk : j ≤ k) (hk : k ≤ f.instructions.length)
    (hs : upTo f j = .ok s) (hs' : upTo f k = .ok s') :
  ∃ insts, s.func.Extends s'.func insts
  := by
  induction k generalizing s' with
  | zero =>
    have hj : j = 0 := Nat.le_zero.mp hjk
    subst hj
    rw [hs] at hs'
    cases hs'
    exact ⟨[], Function.Extends.refl _⟩
  | succ k ih =>
    rcases Nat.lt_or_eq_of_le hjk with hlt | rfl
    · obtain ⟨i, hi⟩ : ∃ i, f.instructions[k]? = some i :=
        ⟨_, List.getElem?_eq_getElem (Nat.lt_of_succ_le hk)⟩
      obtain ⟨s₁, operation, u, hs₁, ho, hstep'⟩ := upTo_succ_eq_ok hi hs'
      obtain ⟨operand, dest, dest', insts', hem⟩ := step_emits hstep'
      obtain ⟨insts, he⟩ := ih (Nat.le_of_lt_succ hlt) (Nat.le_of_succ_le hk) hs₁
      exact ⟨_, he.trans hem.extend⟩
    · rw [hs] at hs'
      cases hs'
      exact ⟨[], Function.Extends.refl _⟩

/-! ### Invariants of the function being built -/

/-- The tables of the function being built are in order, nothing is marked for removal,
and temps are on the stack. -/
structure Sound (s : Lowering) : Prop where
  pending_nil : s.func.pending = []
  indexed : s.func.Indexed
  numbered : s.func.Numbered
  known : s.func.Known
  stack_temp : ∀ t ∈ s.stack, t < s.func.operands.size ∧ s.func.isTemp t = true

/-- The tables are in order before the first instruction. -/
theorem sound_start (f : Bytecode.Function) :
  (start f).Sound
  := by
  constructor
  · rfl
  · rfl
  · constructor <;> intro id <;> simp [start]
  · constructor <;> intro id <;> simp [start]
  · intro t ht
    cases ht

/-- The stack after an operation holds temps from before and temps that it defines. -/
theorem Emission.mem_stack {s s' : Lowering} {operation : Operation}
    {operand dest dest' : OperandId} {insts : List Inst}
    (h : Emission s operation s' operand dest dest' insts) {t : OperandId} (ht : t ∈ s'.stack) :
  t ∈ s.stack ∨ ∃ i ∈ insts, t ∈ i.defs
  := by
  have hemits := h.emits
  generalize s'.stack = st' at hemits ht
  generalize s.stack = st at hemits
  cases hemits with
  | allocClosure | call =>
    rcases List.mem_cons.mp ht with rfl | ht
    · right
      simp [Inst.defs]
    · left
      exact List.mem_cons_of_mem _ (List.mem_of_mem_drop ht)
  | _ =>
    clear h
    simp [Inst.defs] at ht ⊢
    tauto

/-- A step keeps the tables in order. -/
theorem Emission.sound {s s' : Lowering} {operation : Operation} {operand dest dest' : OperandId}
    {insts : List Inst} (h : Emission s operation s' operand dest dest' insts) (hs : s.Sound) :
  s'.Sound
  := by
  constructor
  · rw [h.extend.pending_eq, hs.pending_nil]
  · exact h.extend.indexed hs.indexed
  · exact h.extend.numbered hs.numbered
  · exact h.extend.known hs.known
  · intro t ht
    rcases h.mem_stack ht with hold | ⟨i, hi, hdef⟩
    · obtain ⟨hlt, htemp⟩ := hs.stack_temp t hold
      constructor
      · exact Nat.lt_of_lt_of_le hlt h.extend.size_le
      · rw [Function.isTemp_congr (h.extend.kind_eq hlt)]
        exact htemp
    · exact ⟨(h.defs_fresh i hi t hdef).2, (h.defs_known i hi t hdef).1⟩

/-- The tables are in order after any number of instructions. -/
theorem sound_upTo {k : Nat} {s : Lowering} (hk : k ≤ f.instructions.length)
    (hs : upTo f k = .ok s) :
  s.Sound
  := upTo_induction (P := fun _ s => s.Sound) (sound_start f)
    (fun _ _ _ _ _ _ _ _ _ hP _ _ _ _ hem => hem.sound hP) hk hs

end Lowering

/-! ### Accepted functions -/

/-- A computation that succeeds has a result. -/
theorem exists_eq_ok {ε α : Type} {x : Except ε α} (h : x.isOk = true) :
  ∃ a, x = .ok a
  := by
  cases x with
  | ok a => exact ⟨a, rfl⟩
  | error e => cases h

/-- If checks succeed together, each of them does. -/
theorem forM_eq_ok {α ε : Type} {l : List α} {check : α → Except ε Unit}
    (h : l.forM check = .ok ()) {a : α} (ha : a ∈ l) :
  check a = .ok ()
  := by
  induction l with
  | nil => cases ha
  | cons b l ih =>
    change (check b >>= fun _ => l.forM check) = .ok () at h
    cases hb : check b with
    | error e =>
      rw [hb] at h
      cases h
    | ok u =>
      rw [hb] at h
      rcases List.mem_cons.mp ha with rfl | ha
      · exact hb
      · exact ih h ha

/-- An accepted function comes through lowering, and all its jumps have targets. -/
theorem lower_eq_ok {f : Bytecode.Function} {g : Function} (h : lower f = .ok g) :
  ∃ s, Lowering.upTo f f.instructions.length = .ok s ∧ s.func = g ∧
    ∀ pos inst l, g.fetch pos = some inst → inst.target? = some l → ∃ q, g.labels.at? l = some q
  := by
  unfold lower at h
  rw [← Lowering.upTo_length] at h
  cases hs : Lowering.upTo f f.instructions.length with
  | error e =>
    rw [hs] at h
    cases h
  | ok s =>
    rw [hs] at h
    change (s.func.checkTargets >>= fun _ => pure s.func) = .ok g at h
    cases hc : s.func.checkTargets with
    | error e =>
      rw [hc] at h
      cases h
    | ok u =>
      rw [hc] at h
      cases h
      refine ⟨s, rfl, rfl, ?_⟩
      intro pos inst l hfetch htarget
      have := forM_eq_ok hc (Function.mem_live.mpr hfetch)
      simp only [htarget, Function.labelPosition] at this
      cases hl : s.func.labels.at? l with
      | none =>
        rw [hl] at this
        cases this
      | some q => exact ⟨q, rfl⟩

end StackCompiler.IR
