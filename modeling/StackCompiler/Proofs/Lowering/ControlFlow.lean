import StackCompiler.Proofs.Lowering.Decoding
import StackCompiler.Proofs.Lowering.Trail

/-!
# Labels and jumps through lowering

A compiled function keeps its labels and jumps in order.  This module says what is asked
of bytecode (`EmptyAtJumps`, `LoopsNest`), which instruction a position of the lowered
code belongs to (`Covers`), and that labels are found at matching places on both sides.
-/

namespace StackCompiler

open Bytecode (Instruction Opcode)

/-! ### Conditions on bytecode -/

/-- How many values are on the stack at an instruction where paths meet or part: none at a
label or a jump, the condition at a branch. -/
def Bytecode.Opcode.jumpDepth? : Opcode → Option Nat
  | .label | .goto => some 0
  | .branch => some 1
  | _ => none

/-- The label that an operation marks or may jump to, and the opcode that does it. -/
def IR.Operation.mark? : IR.Operation → Option (Opcode × IR.Label)
  | .label l => some (.label, l)
  | .goto l => some (.goto, l)
  | .branch l => some (.branch, l)
  | _ => none

/-- Labels and jumps are decoded as such. -/
theorem IR.Operation.mark?_ofInstruction {f : Bytecode.Function} {index : Nat} {i : Instruction}
    {operation : IR.Operation} (h : ofInstruction f index i = .ok operation) :
  operation.mark? = i.op.jumpDepth?.map fun _ => (i.op, i.argument)
  := by
  obtain ⟨op, arg⟩ := i
  cases op
  case label | goto | branch =>
    obtain ⟨n, hn, rfl⟩ := map_eq_ok h
    rw [labelOf_eq_ok hn]
    rfl
  case loadConst | loadFunc | loadLocal | storeLocal | loadGlobal | storeGlobal | pushRef | loadRef
      | storeRef | fieldLoad | fieldStore | throwUninitialized | allocClosure | call =>
    obtain ⟨n, hn, rfl⟩ := map_eq_ok h
    rfl
  all_goals
    cases h
    rfl

/-- An operation that is a label or a jump comes from an instruction of that opcode with that
label. -/
theorem IR.Operation.op_of_mark {f : Bytecode.Function} {index : Nat} {i : Instruction}
    {operation : IR.Operation} (h : ofInstruction f index i = .ok operation) {op : Opcode}
    {l : IR.Label} (hmark : operation.mark? = some (op, l)) :
  i.op = op ∧ i.argument = l
  := by
  rw [mark?_ofInstruction h] at hmark
  obtain ⟨d, -, hd⟩ := Option.map_eq_some_iff.mp hmark
  exact Prod.mk.inj hd

/-- The operation of a label instruction is its label. -/
theorem IR.Operation.eq_label_of_op {f : Bytecode.Function} {index : Nat} {i : Instruction}
    {operation : IR.Operation} (h : ofInstruction f index i = .ok operation)
    (hop : i.op = .label) :
  operation = .label i.argument
  := by
  have hmark := mark?_ofInstruction h
  rw [hop] at hmark
  cases operation <;> simp_all [mark?, Bytecode.Opcode.jumpDepth?]

/-- The number of operands on the stack of lowering before an instruction. -/
def IR.Lowering.depthAt (f : Bytecode.Function) (k : Nat) : Nat :=
  match upTo f k with
  | .ok s => s.stack.length
  | .error _ => 0

namespace Bytecode.Function

/-- The stack that lowering tracks is empty at every label and jump, and at every branch
once the condition is popped. -/
def EmptyAtJumps (f : Function) : Prop :=
  ∀ k : Fin f.instructions.length, ∀ d ∈ (f.instructions.get k).op.jumpDepth?,
    IR.Lowering.depthAt f k = d

instance (f : Function) : Decidable f.EmptyAtJumps :=
  inferInstanceAs (Decidable (∀ _ : Fin f.instructions.length, ∀ d ∈ _, _))

/-- The range of a jump back, from its label to the jump. -/
def IsLoop (f : Function) (target jump : Nat) : Prop :=
  target < jump ∧ ∃ i, f.instructions[jump]? = some i ∧ (i.op = .goto ∨ i.op = .branch) ∧
    f.labelIndex i.argument = some target

/-- Counts its parameter down to zero and returns it. -/
def countdown : Function where
  constants := [.integer 0, .integer 1]
  parameterCount := 1
  localVars := ["n"]
  instructions := [
    ⟨.label, some 0⟩, ⟨.loadLocal, some 0⟩, ⟨.loadConst, some 0⟩, ⟨.eq, none⟩, ⟨.branch, some 1⟩,
    ⟨.loadLocal, some 0⟩, ⟨.loadConst, some 1⟩, ⟨.sub, none⟩, ⟨.storeLocal, some 0⟩,
    ⟨.goto, some 0⟩, ⟨.label, some 1⟩, ⟨.loadLocal, some 0⟩, ⟨.ret, none⟩]

example : countdown.EmptyAtJumps := by decide +kernel

end Bytecode.Function

/-- Two ranges are nested or disjoint. -/
def Nested (a b a' b' : Nat) : Prop :=
  (a ≤ a' ∧ b' ≤ b) ∨ (a' ≤ a ∧ b ≤ b') ∨ b < a' ∨ b' < a

instance (a b a' b' : Nat) : Decidable (Nested a b a' b') := inferInstanceAs (Decidable (_ ∨ _))

namespace Bytecode.Function

/-- The ranges of the jumps back are pairwise nested or disjoint. -/
def LoopsNest (f : Function) : Prop :=
  ∀ a b a' b', f.IsLoop a b → f.IsLoop a' b' → Nested a b a' b'

/-- The ranges of the jumps back, from labels to jumps. -/
def loops (f : Function) : List (Nat × Nat) :=
  f.instructions.zipIdx.filterMap fun (i, jump) => do
    let target ← f.labelIndex i.argument
    if (i.op = .goto ∨ i.op = .branch) ∧ target < jump then some (target, jump) else none

/-- The loops that are listed are the ranges of the jumps back. -/
theorem mem_loops {f : Function} {a b : Nat} :
  (a, b) ∈ f.loops ↔ f.IsLoop a b
  := by
  unfold loops IsLoop
  simp only [List.mem_filterMap, Option.bind_eq_bind, Option.bind_eq_some_iff]
  constructor
  · rintro ⟨⟨i, jump⟩, hmem, target, htarget, h⟩
    split at h
    · rename_i hjump
      cases h
      exact ⟨hjump.2, i, List.mem_zipIdx_iff_getElem?.mp hmem, hjump.1, htarget⟩
    · cases h
  · rintro ⟨hlt, i, hi, hop, htarget⟩
    exact ⟨(i, b), List.mem_zipIdx_iff_getElem?.mpr hi, a, htarget, if_pos ⟨hop, hlt⟩⟩

instance (f : Function) : Decidable f.LoopsNest :=
  decidable_of_iff (∀ r ∈ f.loops, ∀ r' ∈ f.loops, Nested r.1 r.2 r'.1 r'.2)
    ⟨fun h a b a' b' hab hab' => h (a, b) (mem_loops.mpr hab) (a', b') (mem_loops.mpr hab'),
      fun h r hr r' hr' => h r.1 r.2 r'.1 r'.2 (mem_loops.mp hr) (mem_loops.mp hr')⟩

example : countdown.LoopsNest := by decide +kernel

end Bytecode.Function

namespace IR.Lowering

variable {f : Bytecode.Function} {g : Function} {s : Lowering} {k : Nat} {i : Instruction}

/-! ### Accepted functions -/

/-- Lowered code extends the code of every state of lowering. -/
theorem extends_lower (h : lower f = .ok g) (hk : k ≤ f.instructions.length) (hs : upTo f k = .ok s) :
  ∃ insts, s.func.Extends g insts
  := by
  obtain ⟨t, ht, rfl, -⟩ := lower_eq_ok h
  exact extends_upTo hk (Nat.le_refl _) hs ht

theorem exists_upTo_of_lower (h : lower f = .ok g) (hk : k ≤ f.instructions.length) :
  ∃ s, upTo f k = .ok s
  := by
  obtain ⟨t, ht, -, -⟩ := lower_eq_ok h
  exact exists_upTo hk ht

/-- The tables of lowered code are in order, and nothing is marked for removal. -/
theorem sound_lower (h : lower f = .ok g) :
  g.pending = [] ∧ g.Indexed ∧ g.Numbered ∧ g.Known
  := by
  obtain ⟨t, ht, rfl, -⟩ := lower_eq_ok h
  have := sound_upTo (Nat.le_refl _) ht
  exact ⟨this.pending_nil, this.indexed, this.numbered, this.known⟩

theorem fetch_lower (h : lower f = .ok g) (pos : Nat) :
  g.fetch pos = g.code[pos]?
  := Function.fetch_of_pending_nil (sound_lower h).1 pos

/-- An instruction of an accepted function is lowered by one emission. -/
theorem exists_emission (h : lower f = .ok g) (hi : f.instructions[k]? = some i) :
  ∃ s s' operation operand dest dest' insts, upTo f k = .ok s ∧ upTo f (k + 1) = .ok s' ∧
    Operation.ofInstruction f k i = .ok operation ∧ Emission s operation s' operand dest dest' insts
  := by
  have hk : k < f.instructions.length := (List.getElem?_eq_some_iff.mp hi).1
  obtain ⟨s', hs'⟩ := exists_upTo_of_lower h (Nat.succ_le_of_lt hk)
  obtain ⟨s, operation, u, hs, ho, hstep⟩ := upTo_succ_eq_ok hi hs'
  obtain ⟨operand, dest, dest', insts, hem⟩ := step_emits hstep
  exact ⟨s, s', operation, operand, dest, dest', insts, hs, hs', ho, hem⟩

/-- The instructions of an emission are found in the lowered function. -/
theorem fetch_emission (h : lower f = .ok g) {s' : Lowering} {operation : Operation}
    {operand dest dest' : OperandId} {insts : List Inst} (hk : k < f.instructions.length)
    (hs' : upTo f (k + 1) = .ok s') (hem : Emission s operation s' operand dest dest' insts) {j : Nat}
    {inst : Inst} (hj : insts[j]? = some inst) :
  g.fetch (s.func.size + j) = some inst
  := by
  obtain ⟨rest, he⟩ := extends_lower h (Nat.succ_le_of_lt hk) hs'
  have hlt : j < insts.length := (List.getElem?_eq_some_iff.mp hj).1
  rw [fetch_lower h, he.getElem?_code_of_lt (by rw [hem.extend.size_eq]; omega),
    hem.extend.getElem?_code, hj]

/-! ### Which instruction a position belongs to -/

/-- A position of the lowered code belongs to an instruction of the bytecode. -/
def Covers (f : Bytecode.Function) (k pos : Nat) : Prop :=
  ∃ s s', upTo f k = .ok s ∧ upTo f (k + 1) = .ok s' ∧ s.func.size ≤ pos ∧ pos < s'.func.size

/-- The sizes of the code grow with the instructions lowered. -/
theorem size_mono {j : Nat} {s' : Lowering} (hjk : j ≤ k) (hk : k ≤ f.instructions.length)
    (hs : upTo f j = .ok s) (hs' : upTo f k = .ok s') :
  s.func.size ≤ s'.func.size
  := by
  obtain ⟨insts, he⟩ := extends_upTo hjk hk hs hs'
  rw [he.size_eq]
  exact Nat.le_add_right _ _

/-- Every position of the lowered code belongs to some instruction. -/
theorem exists_covers (hk : k ≤ f.instructions.length) (hs : upTo f k = .ok s) {pos : Nat}
    (hpos : pos < s.func.size) :
  ∃ j, j < k ∧ Covers f j pos
  := by
  refine upTo_induction
    (P := fun k s => ∀ pos, pos < s.func.size → ∃ j, j < k ∧ Covers f j pos) ?_ ?_ hk hs pos hpos
  · intro pos hpos
    simp [start, Function.size] at hpos
  · intro k i s s' operation operand dest dest' insts ih hs hs' hi ho hem pos hpos
    rcases Nat.lt_or_ge pos s.func.size with hlt | hge
    · obtain ⟨j, hj, hc⟩ := ih pos hlt
      exact ⟨j, Nat.lt_succ_of_lt hj, hc⟩
    · exact ⟨k, Nat.lt_succ_self k, s, s', hs, hs', hge, hpos⟩

/-- A position belongs to an instruction that emits what stands there. -/
theorem emission_of_covers (h : lower f = .ok g) {pos : Nat} {inst : Inst}
    (hk : k < f.instructions.length) (hc : Covers f k pos) (hfetch : g.fetch pos = some inst) :
  ∃ i s s' operation operand dest dest' insts, f.instructions[k]? = some i ∧
    upTo f k = .ok s ∧ upTo f (k + 1) = .ok s' ∧ s.func.size ≤ pos ∧ pos < s'.func.size ∧
    Operation.ofInstruction f k i = .ok operation ∧
    Emission s operation s' operand dest dest' insts ∧ insts[pos - s.func.size]? = some inst
  := by
  obtain ⟨i, hi⟩ : ∃ i, f.instructions[k]? = some i := ⟨_, List.getElem?_eq_getElem hk⟩
  obtain ⟨s, s', operation, operand, dest, dest', insts, hs, hs', ho, hem⟩ := exists_emission h hi
  obtain ⟨s₁, s₁', hs₁, hs₁', hle, hlt⟩ := hc
  rw [hs] at hs₁
  rw [hs'] at hs₁'
  cases hs₁
  cases hs₁'
  refine ⟨i, s, s', operation, operand, dest, dest', insts, hi, hs, hs', hle, hlt, ho, hem, ?_⟩
  have hsize := hem.extend.size_eq
  obtain ⟨x, hx⟩ : ∃ x, insts[pos - s.func.size]? = some x :=
    ⟨_, List.getElem?_eq_getElem (by omega)⟩
  have := fetch_emission h hk hs' hem hx
  rw [Nat.add_sub_cancel' hle, hfetch] at this
  rw [hx, this]

/-! ### Labels -/

/-- Only the operation that marks a label emits one, and it emits nothing else. -/
theorem Emission.label_mem {s' : Lowering} {operation : Operation} {operand dest dest' : OperandId}
    {insts : List Inst} (h : Emission s operation s' operand dest dest' insts) {l : Label}
    (hl : .label l ∈ insts) :
  operation = .label l ∧ insts = [.label l]
  := by
  have hemits := h.emits
  generalize s'.stack = st' at hemits
  generalize s.stack = st at hemits
  cases hemits with
  | binary =>
    rcases List.mem_append.mp hl with hl | hl
    · obtain ⟨p, -, hp⟩ := List.mem_map.mp hl
      cases hp
    · simp at hl
  | label =>
    cases List.mem_singleton.mp hl
    exact ⟨rfl, rfl⟩
  | _ => simp at hl

/-- No label stands twice in lowered code: positions `p` and `q` of the same label are equal. -/
theorem label_unique (hk : k ≤ f.instructions.length) (hs : upTo f k = .ok s) {p q : Nat} {l : Label}
    (hp : s.func.code[p]? = some (.label l)) (hq : s.func.code[q]? = some (.label l)) :
  p = q
  := by
  refine upTo_induction (P := fun _ s => ∀ p q l, s.func.code[p]? = some (.label l) →
    s.func.code[q]? = some (.label l) → p = q) ?_ ?_ hk hs p q l hp hq
  · intro p q l hp
    simp [start] at hp
  · intro k i s s' operation operand dest dest' insts ih hs hs' hi ho hem p q l hp hq
    have hk : k ≤ f.instructions.length := Nat.le_of_lt (List.getElem?_eq_some_iff.mp hi).1
    have hindexed := (sound_upTo hk hs).indexed
    -- A new label is not in the table, so it is nowhere in the code before it.
    have hnew : ∀ p q, p < s.func.size → s.func.size ≤ q → s'.func.code[p]? = some (.label l) →
        s'.func.code[q]? = some (.label l) → False := by
      intro p q hp hq hcp hcq
      rw [hem.extend.getElem?_code_of_lt hp] at hcp
      rw [← Nat.add_sub_cancel' hq, hem.extend.getElem?_code] at hcq
      obtain ⟨hop, -⟩ := hem.label_mem (List.mem_of_getElem? hcq)
      have hnone := hem.label_new l hop
      rw [hindexed] at hnone
      have hsome : (Function.labelsOf s.func.code.toList).at? l = some p := by
        rw [Function.at?_labelsOf]
        rw [Array.getElem?_toList]
        refine ⟨hcp, ?_⟩
        intro r hr
        rw [Array.getElem?_toList] at hr
        exact Nat.le_of_eq (ih r p l hr hcp)
      rw [hsome] at hnone
      cases hnone
    rcases Nat.lt_or_ge p s.func.size with hp' | hp' <;>
      rcases Nat.lt_or_ge q s.func.size with hq' | hq'
    · rw [hem.extend.getElem?_code_of_lt hp'] at hp
      rw [hem.extend.getElem?_code_of_lt hq'] at hq
      exact ih p q l hp hq
    · exact (hnew p q hp' hq' hp hq).elim
    · exact (hnew q p hq' hp' hq hp).elim
    · rw [← Nat.add_sub_cancel' hp', hem.extend.getElem?_code] at hp
      rw [← Nat.add_sub_cancel' hq', hem.extend.getElem?_code] at hq
      obtain ⟨-, hinsts⟩ := hem.label_mem (List.mem_of_getElem? hp)
      rw [hinsts] at hp hq
      have hp₀ := (List.getElem?_eq_some_iff.mp hp).1
      have hq₀ := (List.getElem?_eq_some_iff.mp hq).1
      simp at hp₀ hq₀
      omega

/-- The label table of lowered code gives the positions of labels. -/
theorem at?_labels_lower (h : lower f = .ok g) (l : Label) (pos : Nat) :
  g.labels.at? l = some pos ↔ g.fetch pos = some (.label l)
  := by
  obtain ⟨t, ht, rfl, -⟩ := lower_eq_ok h
  have hs := sound_upTo (Nat.le_refl _) ht
  rw [hs.indexed, Function.at?_labelsOf, Array.getElem?_toList, fetch_lower h]
  constructor
  · exact fun hp => hp.1
  · intro hp
    refine ⟨hp, ?_⟩
    intro q hq
    rw [Array.getElem?_toList] at hq
    exact Nat.le_of_eq (label_unique (Nat.le_refl _) ht hq hp)

/-! ### Jumps -/

/-- Where paths meet or part, the stack of lowering is as empty as it has to be. -/
theorem length_stack_of_mark (he : f.EmptyAtJumps) {operation : Operation} {op : Opcode} {l : Label}
    {d : Nat} (hi : f.instructions[k]? = some i) (hs : upTo f k = .ok s)
    (ho : Operation.ofInstruction f k i = .ok operation) (hmark : operation.mark? = some (op, l))
    (hd : op.jumpDepth? = some d) :
  s.stack.length = d
  := by
  obtain ⟨hk, rfl⟩ := List.getElem?_eq_some_iff.mp hi
  obtain ⟨rfl, -⟩ := Operation.op_of_mark ho hmark
  have := he ⟨k, hk⟩ d hd
  unfold depthAt at this
  rw [hs] at this
  exact this

/-- A label of the lowered code is marked by one instruction, before which the stack is
empty. -/
theorem exists_target (h : lower f = .ok g) (he : f.EmptyAtJumps) {l : Label} {q : Nat}
    (hq : g.labels.at? l = some q) :
  ∃ t s, f.labelIndex l = some t ∧ t ≤ f.instructions.length ∧ upTo f t = .ok s ∧
    s.func.size = q ∧ s.stack = []
  := by
  rw [at?_labels_lower h] at hq
  obtain ⟨u, hu, rfl, -⟩ := lower_eq_ok h
  obtain ⟨t, ht, hc⟩ := exists_covers (Nat.le_refl _) hu (Function.lt_size_of_fetch hq)
  obtain ⟨i, s, s', operation, operand, dest, dest', insts, hi, hs, hs', hle, hlt, ho, hem, hj⟩ :=
    emission_of_covers h ht hc hq
  obtain ⟨rfl, rfl⟩ := hem.label_mem (List.mem_of_getElem? hj)
  have hqs : s.func.size = q := by
    have := (List.getElem?_eq_some_iff.mp hj).1
    simp at this
    omega
  obtain ⟨hop, rfl⟩ := Operation.op_of_mark ho rfl
  have hstack := length_stack_of_mark he hi hs ho rfl rfl
  refine ⟨t, s, ?_, Nat.le_of_lt ht, hs, hqs, List.length_eq_zero_iff.mp hstack⟩
  unfold Bytecode.Function.labelIndex
  rw [List.findIdx?_eq_some_iff_getElem]
  obtain ⟨hlt', hget⟩ := List.getElem?_eq_some_iff.mp hi
  refine ⟨hlt', ?_, ?_⟩
  · rw [hget, hop]
    simp
  · -- An earlier instruction that marks the label would put it at another position.
    intro j hjt hmarked
    simp only [Bool.and_eq_true, decide_eq_true_eq] at hmarked
    have hjlt : j < f.instructions.length := Nat.lt_trans hjt ht
    obtain ⟨r, r', operation, operand, dest, dest', insts, hr, hr', ho', hem'⟩ :=
      exists_emission h (List.getElem?_eq_getElem hjlt)
    have hop' := Operation.eq_label_of_op ho' hmarked.1
    rw [hmarked.2] at hop'
    subst hop'
    have hinsts : insts = [.label i.argument] := by
      have hemits := hem'.emits
      generalize r'.stack = st' at hemits
      cases hemits
      rfl
    subst hinsts
    have hpos := fetch_emission h hjlt hr' hem' (j := 0) rfl
    rw [fetch_lower h] at hpos hq
    have heq := label_unique (Nat.le_refl _) hu hpos hq
    have hmono := size_mono hjt (Nat.le_of_lt ht) hr' hs
    have hgrow := hem'.extend.size_eq
    simp at hgrow
    omega

end IR.Lowering

end StackCompiler
