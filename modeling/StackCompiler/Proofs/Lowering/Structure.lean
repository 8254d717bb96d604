import StackCompiler.Proofs.Code.WellFormed
import StackCompiler.Proofs.Lowering.ControlFlow

/-!
# The structure of lowered code

Lowered code is well formed and every temp has one consumer.  The stack of lowering says
why: it holds temps that are defined and not read yet, and an operation reads what it pops.
Where the stack is empty at every label, the temps on it are defined since the last one, and
lowered code is local.
-/

namespace StackCompiler.IR.Lowering

variable {f : Bytecode.Function} {g : Function}

/-! ### What an operation reads and leaves -/

/-- How an operation uses the stack: it reads what it pops, its last reader is the one that
is no assertion, and it defines temps at its end. -/
structure Usage (st st' : List OperandId) (operand : OperandId) (insts : List Inst) : Prop where
  use_popped : ∀ i ∈ insts, ∀ t ∈ i.uses,
    t ∈ st ∧ t ∉ st' ∨ t = operand ∧ ∃ d, i = .assign d t
  consumer_last : ∀ (j k : Nat) (i i' : Inst) (t : OperandId), insts[j]? = some i → insts[k]? = some i' → t ∈ st → t ∈ i.uses →
    t ∈ i'.uses → (∀ kind, i ≠ .assertion kind t) → k ≤ j
  defs_last : ∀ (j : Nat) (i : Inst), insts[j]? = some i → i.defs ≠ [] → j + 1 = insts.length
  use_once : ∀ i ∈ insts, i.uses.Nodup
  nodup : st'.Nodup

/-- Assertions on popped operands and then one instruction `last`, which uses popped operands or
assigns the new one, use operands as they should. -/
theorem usage_of_guarded {st st' : List OperandId} {operand : OperandId}
    (guards : List (AssertKind × OperandId)) {last : Inst}
    (hguards : ∀ p ∈ guards, p.2 ∈ st ∧ p.2 ∉ st')
    (hlast : ∀ t ∈ last.uses, t ∈ st ∧ t ∉ st' ∨ t = operand ∧ ∃ d, last = .assign d t)
    (honce : last.uses.Nodup) (hnodup : st'.Nodup) :
  Usage st st' operand (guards.map .guard ++ [last])
  := by
  -- Before the last instruction there are assertions only.
  have hbefore : ∀ j i, (guards.map Inst.guard ++ [last])[j]? = some i → j < guards.length →
      ∃ p ∈ guards, i = .guard p := by
    intro j i hj hlt
    rw [List.getElem?_append_left (by simpa using hlt), List.getElem?_map,
      Option.map_eq_some_iff] at hj
    obtain ⟨p, hp, rfl⟩ := hj
    exact ⟨p, List.mem_of_getElem? hp, rfl⟩
  have hlength : ∀ {j : Nat} {i : Inst}, (guards.map Inst.guard ++ [last])[j]? = some i →
      j ≤ guards.length := by
    intro j i hj
    have := (List.getElem?_eq_some_iff.mp hj).1
    simp at this
    omega
  constructor
  · intro i hi t ht
    rcases List.mem_append.mp hi with hi | hi
    · obtain ⟨p, hp, rfl⟩ := List.mem_map.mp hi
      obtain rfl := List.mem_singleton.mp ht
      exact .inl (hguards p hp)
    · obtain rfl := List.mem_singleton.mp hi
      exact hlast t ht
  · intro j k i i' t hj hk _ ht _ hne
    rcases Nat.lt_or_ge j guards.length with hlt | hge
    · obtain ⟨p, -, rfl⟩ := hbefore j i hj hlt
      obtain rfl := List.mem_singleton.mp ht
      exact absurd rfl (hne p.1)
    · exact Nat.le_trans (hlength hk) hge
  · intro j i hj hd
    rcases Nat.lt_or_ge j guards.length with hlt | hge
    · obtain ⟨p, -, rfl⟩ := hbefore j i hj hlt
      exact absurd rfl hd
    · have := hlength hj
      simp
      omega
  · intro i hi
    rcases List.mem_append.mp hi with hi | hi
    · obtain ⟨p, -, rfl⟩ := List.mem_map.mp hi
      exact by simp [Inst.guard, Inst.uses]
    · obtain rfl := List.mem_singleton.mp hi
      exact honce
  · exact hnodup

/-- A request that uses popped operands only, and then the assignment of its answer to a new operand
`dest`, use operands as they should. -/
theorem usage_of_answer {st rest : List OperandId} {operand dest : OperandId} {inst : Inst}
    (hdefs : inst.defs = []) (huses : ∀ t ∈ inst.uses, t ∈ st ∧ t ∉ rest)
    (honce : inst.uses.Nodup) (hoperand : operand ∉ st) (hdest : dest ∉ st) (hrest : rest.Sublist st) (hnodup : st.Nodup) :
  Usage st (dest :: rest) operand [inst, .assign dest operand]
  := by
  constructor
  · intro i hi t ht
    simp only [List.mem_cons, List.not_mem_nil, or_false] at hi
    rcases hi with rfl | rfl
    · obtain ⟨hst, hnot⟩ := huses t ht
      left
      refine ⟨hst, fun hmem => ?_⟩
      rcases List.mem_cons.mp hmem with rfl | hmem
      · exact hdest hst
      · exact hnot hmem
    · obtain rfl := List.mem_singleton.mp ht
      exact .inr ⟨rfl, dest, rfl⟩
  · intro j k i i' t hj hk hst ht ht' _
    match k with
    | 0 => exact Nat.zero_le _
    | 1 =>
      cases hk
      obtain rfl := List.mem_singleton.mp ht'
      exact absurd hst hoperand
    | k + 2 => cases hk
  · intro j i hj hd
    match j with
    | 0 =>
      cases hj
      exact absurd hdefs hd
    | 1 => rfl
    | j + 2 => cases hj
  · intro i hi
    simp only [List.mem_cons, List.not_mem_nil, or_false] at hi
    rcases hi with rfl | rfl
    · exact honce
    · exact by simp [Inst.uses]
  · exact List.nodup_cons.mpr ⟨fun h => hdest (hrest.subset h), hnodup.sublist hrest⟩

/-- What is at the start of a list without repetitions is not in the rest of it. -/
theorem disjoint_take_drop {l : List OperandId} (h : l.Nodup) {n : Nat} {t : OperandId}
    (ht : t ∈ l.take n) (hd : t ∈ l.drop n) :
  False
  := by
  rw [← List.take_append_drop n l, List.nodup_append] at h
  exact h.2.2 t ht t hd rfl

section

variable {s s' : Lowering} {operation : Operation} {operand dest dest' : OperandId}
  {insts : List Inst}

/-- What an operation loads or stores is not on the stack. -/
theorem Emission.operand_not_mem (h : Emission s operation s' operand dest dest' insts)
    (hs : s.Sound) (hregular : operation.Regular) {kind : OperandKind}
    (hkind : operation.operandKind? = some kind) :
  operand ∉ s.stack
  := by
  intro hmem
  obtain ⟨hlt, htemp⟩ := hs.stack_temp operand hmem
  obtain ⟨-, hk⟩ := h.operand_kind kind hkind
  rw [h.extend.kind_eq hlt] at hk
  obtain ⟨n, hn⟩ := Function.isTemp_iff.mp htemp
  rw [hn] at hk
  subst hk
  cases operation <;> simp [Operation.operandKind?] at hkind
  all_goals
    subst hkind
    exact hregular

/-- What the instructions of a step define is not on the stack before it. -/
theorem Emission.dest_not_mem (h : Emission s operation s' operand dest dest' insts) (hs : s.Sound)
    {i : Inst} (hi : i ∈ insts) {t : OperandId} (ht : t ∈ i.defs) :
  t ∉ s.stack
  := by
  intro hmem
  exact Nat.not_lt_of_le (h.defs_fresh i hi t ht).1 (hs.stack_temp t hmem).1

/-- A step reads what it pops, and defines temps at its end. -/
theorem Emission.usage (h : Emission s operation s' operand dest dest' insts) (hs : s.Sound)
    (hregular : operation.Regular) (hnodup : s.stack.Nodup) :
  Usage s.stack s'.stack operand insts
  := by
  have hemits := h.emits
  have hoperand : ∀ kind, operation.operandKind? = some kind → operand ∉ s.stack :=
    fun _ => h.operand_not_mem hs hregular
  have hdest : ∀ i ∈ insts, ∀ t ∈ i.defs, t ∉ s.stack := fun _ hi _ ht => h.dest_not_mem hs hi ht
  have hne := h.dest_ne
  generalize s'.stack = st' at hemits ⊢
  generalize s.stack = st at hemits hoperand hdest hnodup ⊢
  cases hemits with
  | allocRecord | fieldLoad | indexLoad =>
    have hfresh := hdest _ (List.mem_cons_of_mem _ List.mem_cons_self) dest List.mem_cons_self
    refine usage_of_answer rfl ?_ ?_ (hoperand _ rfl) hfresh ?_ hnodup
    · simp_all [Inst.uses, HelperCall.uses]
    · simp_all [Inst.uses, HelperCall.uses, eq_comm]
    · simp
  | allocClosure | call =>
    have hfresh := hdest _ (List.mem_cons_of_mem _ List.mem_cons_self) dest List.mem_cons_self
    obtain ⟨hhead, hrest⟩ := List.nodup_cons.mp hnodup
    refine usage_of_answer rfl ?_ ?_ (hoperand _ rfl) hfresh ((List.drop_sublist _ _).cons _) hnodup
    · intro t ht
      simp only [Inst.uses, List.mem_cons, List.mem_reverse] at ht
      rcases ht with rfl | ht
      · exact ⟨List.mem_cons_self, fun hmem => hhead (List.mem_of_mem_drop hmem)⟩
      · exact ⟨List.mem_cons_of_mem _ (List.mem_of_mem_take ht),
          fun hmem => disjoint_take_drop hrest ht hmem⟩
    · simp only [Inst.uses, List.Nodup, List.pairwise_cons, List.pairwise_reverse, List.mem_reverse]
      refine ⟨fun t ht heq => hhead (heq ▸ List.mem_of_mem_take ht), ?_⟩
      exact (hrest.sublist (List.take_sublist _ _)).imp fun hne => by first | exact hne | exact hne.symm
  | swap | pop =>
    constructor
    all_goals grind
  | binary op rhs lhs rest =>
    have hfresh := hdest (.binary op dest lhs rhs) (by simp) dest List.mem_cons_self
    have hguards : ∀ p ∈ op.guards lhs rhs, p.2 ∈ rhs :: lhs :: rest ∧ p.2 ∉ dest :: rest := by
      intro p hp
      have := BinOp.mem_guards hp
      grind
    exact usage_of_guarded _ hguards (by grind [Inst.uses]) (by grind [Inst.uses]) (by grind)
  | unary op v rest =>
    have hfresh := hdest (.unary op dest v) (by simp) dest List.mem_cons_self
    exact usage_of_guarded [(op.demands, v)] (by grind) (by grind [Inst.uses]) (by grind [Inst.uses]) (by grind)
  | branch l cond rest =>
    exact usage_of_guarded [(.bool, cond)] (by grind) (by grind [Inst.uses]) (by grind [Inst.uses]) (by grind)
  | load =>
    have hfresh := hdest _ List.mem_cons_self dest List.mem_cons_self
    exact usage_of_guarded [] (by simp) (by grind [Inst.uses]) (by grind [Inst.uses]) (by grind)
  | dup v rest =>
    have hfresh := hdest _ List.mem_cons_self dest List.mem_cons_self
    have hfresh' := hdest _ List.mem_cons_self dest' (List.mem_cons_of_mem _ List.mem_cons_self)
    exact usage_of_guarded [] (by simp) (by grind [Inst.uses]) (by grind [Inst.uses]) (by grind)
  | store | fieldStore | indexStore | ret | label | goto | collect | throwUninitialized =>
    refine usage_of_guarded [] (by simp) ?_ ?_ ?_
    all_goals grind [Inst.uses, HelperCall.uses]

/-- Assignments and stores are of the operand of the operation; nothing is loaded from the
array of locals. -/
theorem Emission.places (h : Emission s operation s' operand dest dest' insts) {i : Inst}
    (hi : i ∈ insts) :
  (∀ d x, i = .assign d x → x = operand ∧ ∃ kind, operation.operandKind? = some kind) ∧
  (∀ x v, i = .store x v → x = operand ∧ ∃ kind, operation = .store kind) ∧
  (∀ x, i ≠ .forceLoad x) ∧ ∀ l, i ≠ .shortJump l
  := by
  have hemits := h.emits
  generalize s'.stack = st' at hemits
  generalize s.stack = st at hemits
  cases hemits with
  | binary =>
    rcases List.mem_append.mp hi with hi | hi
    · obtain ⟨p, -, rfl⟩ := List.mem_map.mp hi
      simp [Inst.guard]
    · cases List.mem_singleton.mp hi
      simp
  | swap | pop => cases hi
  | _ =>
    simp only [List.mem_cons, List.not_mem_nil, or_false] at hi
    rcases hi with rfl | rfl <;> simp [Operation.operandKind?]

/-- The instructions of an operation have operands of the kinds they take. -/
theorem Emission.fits (h : Emission s operation s' operand dest dest' insts) (hs : s.Sound)
    (hregular : operation.Regular) (hnodup : s.stack.Nodup) {i : Inst} (hi : i ∈ insts) :
  i.Fits s'.func
  := by
  have hstack : ∀ t ∈ s.stack, t < s'.func.operands.size ∧ s'.func.isTemp t = true := by
    intro t ht
    obtain ⟨hlt, htemp⟩ := hs.stack_temp t ht
    refine ⟨Nat.lt_of_lt_of_le hlt h.extend.size_le, ?_⟩
    rw [Function.isTemp_congr (h.extend.kind_eq hlt)]
    exact htemp
  obtain ⟨hassign, hstore, hload, -⟩ := h.places hi
  have huse := (h.usage hs hregular hnodup).use_popped i hi
  constructor
  · intro t ht
    exact ⟨(h.defs_fresh i hi t ht).2, (h.defs_known i hi t ht).1⟩
  · intro t ht
    rcases huse t ht with ⟨hmem, -⟩ | ⟨rfl, d, rfl⟩
    · exact (hstack t hmem).1
    · obtain ⟨-, kind, hkind⟩ := hassign d t rfl
      exact (h.operand_kind kind hkind).1
  · intro t ht
    rcases huse t ht with ⟨hmem, -⟩ | ⟨-, hd⟩
    · exact .inl (hstack t hmem).2
    · exact .inr hd
  · intro x hx
    exact absurd hx (hload x)
  · intro x v hx
    obtain ⟨rfl, kind, rfl⟩ := hstore x v hx
    obtain ⟨hlt, hkind⟩ := h.operand_kind kind rfl
    refine ⟨hlt, ?_⟩
    rw [hkind]
    cases kind <;> first | rfl | exact hregular.elim

end

/-! ### The code built so far -/

/-- The code built so far is in order, and the temps on the stack are defined and not read. -/
structure Built (s : Lowering) : Prop where
  nodup : s.stack.Nodup
  fits : ∀ p i, s.func.fetch p = some i → i.Fits s.func
  single : ∀ p q t, s.func.DefinesAt p t → s.func.DefinesAt q t → p = q
  defined : ∀ p t, s.func.ReadsAt p t → s.func.isTemp t = true → ∃ q, q < p ∧ s.func.DefinesAt q t
  linear : s.func.Linear []
  pushed : ∀ t ∈ s.stack, s.func.Unread t ∧ ∃ q, s.func.DefinesAt q t

/-- The code built so far is local, and the temps on the stack are defined since the last
label. -/
structure Stretched (s : Lowering) : Prop where
  isLocal : s.func.Local
  pushed : ∀ t ∈ s.stack, ∀ q, s.func.DefinesAt q t → s.func.Straight q s.func.size

/-- The code is in order before the first instruction. -/
theorem built_start (f : Bytecode.Function) :
  (start f).Built
  := by
  have hnone : ∀ p, (start f).func.fetch p = none := fun p => rfl
  constructor
  · exact List.nodup_nil
  · intro p i hi
    rw [hnone] at hi
    cases hi
  · rintro p q t ⟨i, hi, -⟩
    rw [hnone] at hi
    cases hi
  · rintro p t ⟨i, hi, -⟩
    rw [hnone] at hi
    cases hi
  · constructor
    · intro p q i t hi
      rw [hnone] at hi
      cases hi
    · intro p i hi
      rw [hnone] at hi
      cases hi
  · intro t ht
    cases ht

/-- The code is local before the first instruction. -/
theorem stretched_start (f : Bytecode.Function) :
  (start f).Stretched
  := by
  have hnone : ∀ p, (start f).func.fetch p = none := fun p => rfl
  constructor
  · rintro q p t ⟨i, hi, -⟩
    rw [hnone] at hi
    cases hi
  · intro t ht
    cases ht

section

variable {s s' : Lowering} {operation : Operation} {operand dest dest' : OperandId}
  {insts : List Inst}

/-- What is read in the code after an operation was read before, or is popped by it. -/
theorem Emission.reads_cases (h : Emission s operation s' operand dest dest' insts) (hs : s.Sound)
    (hregular : operation.Regular) (hnodup : s.stack.Nodup) {p : Nat} {t : OperandId}
    (hread : s'.func.ReadsAt p t) (ht : s'.func.isTemp t = true) :
  (p < s.func.size ∧ s.func.ReadsAt p t) ∨
    ∃ j i, p = s.func.size + j ∧ insts[j]? = some i ∧ t ∈ i.uses ∧ t ∈ s.stack ∧ t ∉ s'.stack
  := by
  obtain ⟨i, hi, hti⟩ := hread
  rcases h.extend.fetch_cases hs.pending_nil hi with ⟨hlt, hold⟩ | ⟨j, rfl, hj⟩
  · exact .inl ⟨hlt, i, hold, hti⟩
  · right
    have hmem := List.mem_of_getElem? hj
    rcases (h.usage hs hregular hnodup).use_popped i hmem t hti with ⟨hst, hst'⟩ | ⟨rfl, d, rfl⟩
    · exact ⟨j, i, rfl, hj, hti, hst, hst'⟩
    · -- The operand of an operation is no temp.
      obtain ⟨-, kind, hkind⟩ := (h.places hmem).1 d t rfl
      obtain ⟨n, hn⟩ := Function.isTemp_iff.mp ht
      rw [(h.operand_kind kind hkind).2] at hn
      subst hn
      cases operation <;> simp [Operation.operandKind?] at hkind
      all_goals
        subst hkind
        cases hregular

/-- After a step an operand is defined where it was before, or by one of the instructions that
were added. -/
theorem Emission.defines_cases (h : Emission s operation s' operand dest dest' insts)
    (hs : s.Sound) {p : Nat} {t : OperandId} (hdef : s'.func.DefinesAt p t) :
  (p < s.func.size ∧ s.func.DefinesAt p t) ∨
    ∃ j i, p = s.func.size + j ∧ insts[j]? = some i ∧ t ∈ i.defs
  := by
  obtain ⟨i, hi, hti⟩ := hdef
  rcases h.extend.fetch_cases hs.pending_nil hi with ⟨hlt, hold⟩ | ⟨j, rfl, hj⟩
  · exact .inl ⟨hlt, i, hold, hti⟩
  · exact .inr ⟨j, i, rfl, hj, hti⟩

/-- A stretch without labels stays one, and a new instruction that is no label is in it. -/
theorem Emission.straight (h : Emission s operation s' operand dest dest' insts) (hs : s.Sound)
    {q p : Nat} (hstraight : s.func.Straight q (min p s.func.size))
    (hlabel : ∀ l, s.func.size ≤ p → .label l ∉ insts) :
  s'.func.Straight q p
  := by
  intro r l hr hr' hfetch
  rcases h.extend.fetch_cases hs.pending_nil hfetch with ⟨hlt, hold⟩ | ⟨j, rfl, hj⟩
  · exact hstraight r l hr (by omega) hold
  · exact hlabel l (by omega) (List.mem_of_getElem? hj)

/-- If the code of a sound state is in order, then it is so after the instructions of a regular
operation. -/
theorem Emission.built (h : Emission s operation s' operand dest dest' insts) (hs : s.Sound)
    (hb : s.Built) (hregular : operation.Regular) :
  s'.Built
  := by
  have husage := h.usage hs hregular hb.nodup
  have hreads := fun {p t} => h.reads_cases hs hregular hb.nodup (p := p) (t := t)
  have hold_def : ∀ {q t}, s.func.DefinesAt q t → s'.func.DefinesAt q t := by
    rintro q t ⟨i, hi, hti⟩
    exact ⟨i, h.extend.fetch_old hs.pending_nil hi, hti⟩
  have hold_temp : ∀ {p t}, s.func.ReadsAt p t → s'.func.isTemp t = true →
      s.func.isTemp t = true := by
    rintro p t ⟨i, hi, hti⟩ ht
    rwa [Function.isTemp_congr (h.extend.kind_eq ((hb.fits p i hi).use_lt t hti))] at ht
  have hstack_temp : ∀ t ∈ s.stack, s'.func.isTemp t = true := by
    intro t ht
    obtain ⟨hlt, htemp⟩ := hs.stack_temp t ht
    rwa [Function.isTemp_congr (h.extend.kind_eq hlt)]
  constructor
  case nodup => exact husage.nodup
  case fits =>
    intro p i hi
    rcases h.extend.fetch_cases hs.pending_nil hi with ⟨-, hold⟩ | ⟨j, -, hj⟩
    · exact (hb.fits p i hold).of_kind h.extend.size_le fun id hid => h.extend.kind_eq hid
    · exact h.fits hs hregular hb.nodup (List.mem_of_getElem? hj)
  case single =>
    intro p q t hp hq
    -- What was defined before is not defined anew.
    have hfresh : ∀ {p j : Nat} {i : Inst}, s.func.DefinesAt p t → insts[j]? = some i → t ∈ i.defs →
        False := by
      rintro p j i ⟨i', hi', hti'⟩ hj hti
      have hlt := ((hb.fits p i' hi').def_temp t hti').1
      exact Nat.not_lt_of_le (h.defs_fresh i (List.mem_of_getElem? hj) t hti).1 hlt
    rcases h.defines_cases hs hp with ⟨-, hp⟩ | ⟨j, i, rfl, hj, hti⟩ <;>
      rcases h.defines_cases hs hq with ⟨-, hq⟩ | ⟨k, i', rfl, hk, hti'⟩
    · exact hb.single p q t hp hq
    · exact (hfresh hp hk hti').elim
    · exact (hfresh hq hj hti).elim
    · have h₁ := husage.defs_last j i hj (List.ne_nil_of_mem hti)
      have h₂ := husage.defs_last k i' hk (List.ne_nil_of_mem hti')
      omega
  case defined =>
    intro p t hread ht
    rcases hreads hread ht with ⟨hlt, hread⟩ | ⟨j, i, rfl, hj, hti, hst, -⟩
    · obtain ⟨q, hq, hdef⟩ := hb.defined p t hread (hold_temp hread ht)
      exact ⟨q, hq, hold_def hdef⟩
    · obtain ⟨-, q, hdef⟩ := hb.pushed t hst
      have hq : q < s.func.size := by
        obtain ⟨i', hi', -⟩ := hdef
        exact Function.lt_size_of_fetch hi'
      exact ⟨q, by omega, hold_def hdef⟩
  case linear =>
    refine ⟨?_, fun p i hi => ?once⟩
    case once =>
      rcases h.extend.fetch_cases hs.pending_nil hi with ⟨-, hold⟩ | ⟨j, -, hj⟩
      · exact hb.linear.once p i hold
      · exact husage.use_once i (List.mem_of_getElem? hj)
    intro p q i t hi hti ht hlight hread
    rcases hreads ⟨i, hi, hti⟩ ht with ⟨hlt, hp⟩ | ⟨j, i', rfl, hj, hti', hst, -⟩ <;>
      rcases hreads hread ht with ⟨hlt', hq⟩ | ⟨k, i'', rfl, hk, hti'', hst', -⟩
    · obtain ⟨i', hi', -⟩ := hp
      have := h.extend.fetch_old hs.pending_nil hi'
      rw [hi] at this
      cases this
      exact hb.linear.last p q i t hi' hti (hold_temp hq ht) hlight hq
    · exact ((hb.pushed t hst').1 p hp).elim
    · omega
    · have hij : i = i' := by
        rw [h.extend.fetch_new hs.pending_nil hj] at hi
        exact (Option.some.inj hi).symm
      subst hij
      have := husage.consumer_last j k i i'' t hj hk hst hti hti'' fun kind hk => hlight (.inl ⟨kind, hk⟩)
      omega
  case pushed =>
    intro t ht
    rcases h.mem_stack ht with hst | ⟨i, hi, hti⟩
    · obtain ⟨hunread, q, hdef⟩ := hb.pushed t hst
      refine ⟨fun p hread => ?_, q, hold_def hdef⟩
      rcases hreads hread (hstack_temp t hst) with ⟨-, hp⟩ | ⟨j, i, -, -, -, -, hst'⟩
      · exact hunread p hp
      · exact hst' ht
    · obtain ⟨j, hj⟩ := List.mem_iff_getElem?.mp hi
      obtain ⟨hle, -⟩ := h.defs_fresh i hi t hti
      refine ⟨fun p hread => ?_, s.func.size + j, i, h.extend.fetch_new hs.pending_nil hj, hti⟩
      rcases hreads hread (h.defs_known i hi t hti).1 with ⟨-, i', hi', hti'⟩ | ⟨-, -, -, -, -, hst, -⟩
      · exact Nat.not_lt_of_le hle ((hb.fits p i' hi').use_lt t hti')
      · exact Nat.not_lt_of_le hle (hs.stack_temp t hst).1

/-- An operation keeps the code local if it marks a label with an empty stack only. -/
theorem Emission.stretched (h : Emission s operation s' operand dest dest' insts) (hs : s.Sound)
    (hb : s.Built) (hl : s.Stretched) (hregular : operation.Regular)
    (hempty : ∀ l, operation = .label l → s.stack = []) :
  s'.Stretched
  := by
  have husage := h.usage hs hregular hb.nodup
  have hsize := h.extend.size_eq
  have hnolabel : ∀ t ∈ s.stack, ∀ l, .label l ∉ insts := by
    intro t ht l hl
    rw [hempty l (h.label_mem hl).1] at ht
    cases ht
  -- A temp that an operation defines is new.
  have hnew : ∀ {j : Nat} {i : Inst} {t}, insts[j]? = some i → t ∈ i.defs →
      s.func.operands.size ≤ t ∧ s'.func.isTemp t = true := by
    intro j i t hj ht
    have hmem := List.mem_of_getElem? hj
    exact ⟨(h.defs_fresh i hmem t ht).1, (h.defs_known i hmem t ht).1⟩
  have htemp : ∀ {q t}, s'.func.DefinesAt q t → s'.func.isTemp t = true := by
    intro q t hdef
    rcases h.defines_cases hs hdef with ⟨-, i, hi, ht⟩ | ⟨j, i, -, hj, ht⟩
    · obtain ⟨hlt, htemp⟩ := (hb.fits q i hi).def_temp t ht
      rwa [Function.isTemp_congr (h.extend.kind_eq hlt)]
    · exact (hnew hj ht).2
  constructor
  · intro q p t hdef hread
    rcases h.reads_cases hs hregular hb.nodup hread (htemp hdef) with
      ⟨hlt, hread⟩ | ⟨j, i, rfl, hj, hti, hst, -⟩ <;>
      rcases h.defines_cases hs hdef with ⟨-, hdef⟩ | ⟨k, i', -, hk, hti'⟩
    · refine h.straight hs ?_ fun _ hle => by omega
      rw [Nat.min_eq_left (Nat.le_of_lt hlt)]
      exact hl.isLocal q p t hdef hread
    · obtain ⟨i, hi, ht⟩ := hread
      exact absurd ((hb.fits p i hi).use_lt t ht) (Nat.not_lt_of_le (hnew hk hti').1)
    · refine h.straight hs ?_ fun l _ => hnolabel t hst l
      rw [Nat.min_eq_right (Nat.le_add_right _ _)]
      exact hl.pushed t hst q hdef
    · exact absurd (hs.stack_temp t hst).1 (Nat.not_lt_of_le (hnew hk hti').1)
  · intro t ht q hdef
    rcases h.defines_cases hs hdef with ⟨-, hdef⟩ | ⟨j, i, rfl, hj, hti⟩
    · rcases h.mem_stack ht with hst | ⟨i, hi, hti⟩
      · refine h.straight hs ?_ fun l _ => hnolabel t hst l
        rw [Nat.min_eq_right (by omega)]
        exact hl.pushed t hst q hdef
      · obtain ⟨i', hi', ht'⟩ := hdef
        exact absurd ((hb.fits q i' hi').def_temp t ht').1
          (Nat.not_lt_of_le (h.defs_fresh i hi t hti).1)
    · have hlast := husage.defs_last j i hj (List.ne_nil_of_mem hti)
      intro r l hr hr' hfetch
      have := Function.lt_size_of_fetch hfetch
      omega

end

/-- The code built so far is in order after any number of instructions. -/
theorem built_upTo {k : Nat} {s : Lowering} (hk : k ≤ f.instructions.length)
    (hs : upTo f k = .ok s) :
  s.Built
  := by
  refine upTo_induction (P := fun _ s => s.Built) (built_start f) ?_ hk hs
  intro k i s s' operation operand dest dest' insts hb hs hs' hi ho hem
  have hk : k ≤ f.instructions.length := Nat.le_of_lt (List.getElem?_eq_some_iff.mp hi).1
  exact hem.built (sound_upTo hk hs) hb (Operation.regular_ofInstruction ho)

/-- The code built so far is local after any number of instructions, if the stack is empty at
every jump and label. -/
theorem stretched_upTo (he : f.EmptyAtJumps) {k : Nat} {s : Lowering}
    (hk : k ≤ f.instructions.length) (hs : upTo f k = .ok s) :
  s.Stretched
  := by
  refine upTo_induction (P := fun _ s => s.Stretched) (stretched_start f) ?_ hk hs
  intro k i s s' operation operand dest dest' insts hl hs hs' hi ho hem
  have hk : k ≤ f.instructions.length := Nat.le_of_lt (List.getElem?_eq_some_iff.mp hi).1
  refine hem.stretched (sound_upTo hk hs) (built_upTo hk hs) hl (Operation.regular_ofInstruction ho) ?_
  rintro l rfl
  exact List.length_eq_zero_iff.mp (length_stack_of_mark he hi hs ho rfl rfl)

/-- Lowered code is well formed. -/
theorem wellFormed_lower (h : lower f = .ok g) :
  g.WellFormed
  := by
  obtain ⟨s, hs, rfl, -⟩ := lower_eq_ok h
  have hb := built_upTo (Nat.le_refl _) hs
  exact ⟨(sound_lower h).2.2.1, hb.fits, at?_labels_lower h, hb.single, hb.defined⟩

/-- In lowered code every temp has one consumer. -/
theorem linear_lower (h : lower f = .ok g) :
  g.Linear []
  := by
  obtain ⟨s, hs, rfl, -⟩ := lower_eq_ok h
  exact (built_upTo (Nat.le_refl _) hs).linear

/-- Lowered code is local where the stack is empty at labels. -/
theorem local_lower (h : lower f = .ok g) (he : f.EmptyAtJumps) :
  g.Local
  := by
  obtain ⟨s, hs, rfl, -⟩ := lower_eq_ok h
  exact (stretched_upTo he (Nat.le_refl _) hs).isLocal

end StackCompiler.IR.Lowering
