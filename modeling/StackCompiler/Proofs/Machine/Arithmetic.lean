import StackCompiler.Proofs.Machine.Operands

/-!
# Inline arithmetic

The words of integers are eight times the integers.  Inline code on words of integers leaves eight
times the exact result, as far as a word holds it, and inline comparisons leave the words of truth
values.  The code reads its operands wherever they are, never faults, and changes no register but
`rax`, `rcx` and `rdx` before the result goes to its destination.
-/

namespace StackCompiler

open Bytecode (Constant)
open IR (OperandId BinOp UnOp Inst)

/-! ### Words of integers -/

namespace Word

/-- A word that says that it is an integer is the word of the integer that it holds. -/
theorem ofInt_toInt {w : Word} (h : w.tag = .integer) :
  ofInt (toInt w) = w
  := by
  rw [tag_eq_integer_iff] at h
  have hcond : w.toInt64.toInt = if 2 * w.toNat < 2 ^ 64 then (w.toNat : Int) else w.toNat - 2 ^ 64 :=
    BitVec.toInt_eq_toNat_cond w.toBitVec
  have hdvd : 8 ∣ w.toInt64.toInt := by
    rw [hcond]
    split <;> omega
  have hlt := w.toInt64.toInt_lt
  have hle := w.toInt64.le_toInt
  apply eq_of_toInt
  unfold toInt
  rw [toInt_ofInt, toInt_shiftRight _ (show _ = 3 from rfl), Int.bmod_eq_of_le (by omega) (by omega)]
  omega

/-- The integer that a word holds fits. -/
theorem isSmall_toInt (w : Word) :
  (Constant.integer (toInt w)).IsSmall
  := by
  have hlt := w.toInt64.toInt_lt
  have hle := w.toInt64.le_toInt
  change -2 ^ 60 ≤ (toInt w).toInt ∧ (toInt w).toInt < 2 ^ 60
  unfold toInt
  rw [toInt_shiftRight _ (show _ = 3 from rfl)]
  constructor <;> omega

/-- Eight times an integer, as far as a word holds it. -/
def ofExact (n : Int) : Word := (Int64.ofInt (8 * n)).toUInt64

/-- The word of an integer is that of every exact result that is congruent to it. -/
theorem ofInt_eq_ofExact {n : Int64} {k : Int} (h : n.toInt = k.bmod (2 ^ 64)) :
  ofInt n = ofExact k
  := by
  apply eq_of_toInt
  unfold ofExact
  rw [toInt_ofInt, h, Int.mul_bmod_bmod, Int64.toInt64_toUInt64, Int64.toInt_ofInt]
  rfl

end Word

/-! ### Results -/

/-- The word of the result of an operation on integers. -/
def IR.BinOp.exact? (op : BinOp) (a b : Int) : Option Word :=
  match op with
  | intAdd => some (Word.ofExact (a + b))
  | sub => some (Word.ofExact (a - b))
  | mul => some (Word.ofExact (a * b))
  | div => some (Word.ofExact (a.tdiv b))
  | gt => some (Word.ofBool (b < a))
  | geq => some (Word.ofBool (b ≤ a))
  | fastEq => some (Word.ofBool (a = b))
  | add | eq | and | or => none

/-- The word of the result of an operation on truth values. -/
def IR.BinOp.truth? (op : BinOp) (a b : Bool) : Option Word :=
  match op with
  | and => some (Word.ofBool (a && b))
  | or => some (Word.ofBool (a || b))
  | fastEq => some (Word.ofBool (a == b))
  | _ => none

namespace Machine

open Register (rax rcx rdx rbp)

/-- Folding gives the exact result, cut to a payload. -/
theorem exact?_eq_of_fold {op : BinOp} (hop : op ∈ arithmetic) {a b : Int64} (hzero : op = .div → b ≠ 0)
    {c : Constant} {w : Word} (hfold : op.fold (.integer a) (.integer b) = .ok (some c))
    (hw : c.word? = some w) :
  op.exact? a.toInt b.toInt = some w
  := by
  have hinteger : ∀ (n : Int64) (k : Int), c = .integer (Word.wrap n) → n.toInt = k.bmod (2 ^ 64) →
      some (Word.ofExact k) = some w := by
    rintro n k rfl hn
    rw [← hw, ← Word.ofInt_eq_ofExact hn]
    change _ = some (Word.ofInt (Word.wrap (Word.wrap n)))
    rw [Word.ofInt_wrap, Word.ofInt_wrap]
  have hboolean : ∀ x y : Bool, c = .boolean x → y = x → some (Word.ofBool y) = some w := by
    rintro x y rfl rfl
    exact hw
  cases op with
  | intAdd =>
    cases hfold
    exact hinteger _ _ rfl (Int64.toInt_add a b)
  | sub =>
    cases hfold
    exact hinteger _ _ rfl (Int64.toInt_sub a b)
  | mul =>
    cases hfold
    exact hinteger _ _ rfl (Int64.toInt_mul a b)
  | div =>
    have hb := hzero rfl
    have hquotient : BinOp.div.fold (.integer a) (.integer b)
        = .ok (some (.integer (Word.wrap (a / b)))) := if_neg hb
    rw [hquotient] at hfold
    cases hfold
    exact hinteger _ _ rfl (Int64.toInt_div a b)
  | gt =>
    cases hfold
    exact hboolean _ _ rfl (decide_eq_decide.mpr Int64.lt_iff_toInt_lt.symm)
  | geq =>
    cases hfold
    exact hboolean _ _ rfl (decide_eq_decide.mpr Int64.le_iff_toInt_le.symm)
  | fastEq =>
    cases hfold
    refine hboolean _ _ rfl (decide_eq_decide.mpr ?_)
    rw [Int64.toInt_inj, Constant.integer.injEq]
  | add | eq | and | or => simp [arithmetic] at hop

/-- Inline code on the words of integers leaves the word of the exact result. -/
theorem run_exact {op : BinOp} {a b w : Word} (ha : a.tag = .integer) (hb : b.tag = .integer)
    (hzero : op = .div → b ≠ 0)
    (hw : op.exact? (Word.toInt a).toInt (Word.toInt b).toInt = some w) :
  ∃ insts, inlineCode? op = some insts ∧ ∀ p : Processor, p.registers rax = a →
    p.registers rcx = b → ∃ q, Processor.run insts p = some q ∧ q.registers rax = w
  := by
  have hop : op ∈ arithmetic := by
    cases op with
    | add | eq | and | or => cases hw
    | _ => decide
  have hword : op = .div → Word.ofInt (Word.toInt b) ≠ 0 := by
    rwa [Word.ofInt_toInt hb]
  have hpayload : op = .div → Word.toInt b ≠ 0 := by
    intro hdiv h
    rw [h] at hword
    exact hword hdiv rfl
  obtain ⟨insts, c, v, hcode, hfold, hv, hrun⟩ :=
    run_inlineCode hop (Word.isSmall_toInt a) (Word.isSmall_toInt b) hword
  have hexact := exact?_eq_of_fold hop hpayload hfold hv
  rw [hw] at hexact
  cases hexact
  rw [Word.ofInt_toInt ha, Word.ofInt_toInt hb] at hrun
  exact ⟨insts, hcode, hrun⟩

/-- Inline code on the words of truth values leaves the word of the result. -/
theorem run_truth {op : BinOp} {a b : Bool} {w : Word} (hw : op.truth? a b = some w) :
  ∃ insts, inlineCode? op = some insts ∧ ∀ p : Processor, p.registers rax = Word.ofBool a →
    p.registers rcx = Word.ofBool b → ∃ q, Processor.run insts p = some q ∧ q.registers rax = w
  := by
  cases op with
  | and =>
    cases hw
    refine ⟨_, rfl, fun p hrax hrcx => ⟨_, rfl, ?_⟩⟩
    change p.registers rax &&& p.registers rcx = _
    rw [hrax, hrcx]
    cases a <;> cases b <;> rfl
  | or =>
    cases hw
    refine ⟨_, rfl, fun p hrax hrcx => ⟨_, rfl, ?_⟩⟩
    change p.registers rax ||| p.registers rcx = _
    rw [hrax, hrcx]
    cases a <;> cases b <;> rfl
  | fastEq =>
    cases hw
    refine ⟨_, rfl, fun p hrax hrcx => ?_⟩
    obtain ⟨q, hq, hresult⟩ := run_compareCode .equal p
    refine ⟨q, hq, ?_⟩
    rw [hresult, hrax, hrcx]
    simp only [Condition.holds, Flags.zero_ofCompare]
    cases a <;> cases b <;> rfl
  | _ => cases hw

/-! ### What code changes -/

/-- Whether an instruction works in registers, and changes no others than given ones. -/
def Instruction.changesOnly (changed : List Register) : Instruction → Bool
  | .mov dst _ | .load dst _ _ | .movSmall dst _ | .movWide dst _ | .cmov _ dst _ | .binary _ dst _
  | .binaryImm _ dst _ | .imul dst _ | .neg dst | .shift _ dst _ => changed.contains dst
  | .cqo => changed.contains rdx
  | .idiv _ => changed.contains rax && changed.contains rdx
  | _ => false

namespace Processor

variable {changed : List Register} {p q : Processor}

theorem Keeps.clobber (h : Keeps changed p q) :
  Keeps changed p q.clobber
  := ⟨h.registers_eq, h.memory_eq⟩

theorem Keeps.refl (p : Processor) :
  Keeps changed p p
  := ⟨fun _ _ => rfl, rfl⟩

/-- An operation on words in registers changes its destination only. -/
theorem keeps_combine {dst : Register} (hdst : dst ∈ changed) (op : RegisterOp) (w : Word) :
  Keeps changed p (p.combine op dst w)
  := by
  cases op with
  | cmp => exact ⟨fun _ _ => rfl, rfl⟩
  | _ => exact (Keeps.set hdst _).clobber

/-- An instruction that changes no other registers than given ones keeps the others, and the
memory. -/
theorem keeps_execute {inst : Instruction} (hinst : inst.changesOnly changed = true)
    (h : p.execute inst = some q) :
  Keeps changed p q
  := by
  cases inst with
  | mov dst src | load dst base disp | movSmall dst imm | movWide dst imm =>
    cases h
    exact Keeps.set (List.contains_iff_mem.mp hinst) _
  | cmov cond dst src =>
    obtain ⟨flags, -, rfl⟩ := Option.map_eq_some_iff.mp h
    split
    · exact Keeps.set (List.contains_iff_mem.mp hinst) _
    · exact Keeps.refl p
  | binary op dst src =>
    cases h
    exact keeps_combine (List.contains_iff_mem.mp hinst) _ _
  | binaryImm op dst imm =>
    have hdst := List.contains_iff_mem.mp hinst
    cases op with
    | xor =>
      cases h
      exact (Keeps.set hdst _).clobber
    | add | sub | cmp =>
      cases h
      exact keeps_combine hdst _ _
  | imul dst src | neg dst =>
    cases h
    exact (Keeps.set (List.contains_iff_mem.mp hinst) _).clobber
  | shift op dst amount =>
    have hdst := List.contains_iff_mem.mp hinst
    cases op <;> cases h <;> exact (Keeps.set hdst _).clobber
  | cqo =>
    cases h
    exact Keeps.set (List.contains_iff_mem.mp hinst) _
  | idiv divisor =>
    obtain ⟨hrax, hrdx⟩ := (Bool.and_eq_true _ _).mp hinst
    simp only [execute, divide] at h
    split at h
    · cases h
    · cases h
      apply Keeps.clobber
      exact (Keeps.set (List.contains_iff_mem.mp hrax) _).trans (Keeps.set (List.contains_iff_mem.mp hrdx) _)
  | _ => cases hinst

/-- What the instructions of a sequence do not change, the sequence does not change. -/
theorem keeps_run {insts : List Instruction} (hinsts : insts.all (·.changesOnly changed) = true)
    (h : run insts p = some q) :
  Keeps changed p q
  := by
  induction insts generalizing p with
  | nil =>
    cases h
    exact Keeps.refl _
  | cons inst insts ih =>
    rw [List.all_cons, Bool.and_eq_true] at hinsts
    rw [run_cons] at h
    obtain ⟨s, hs, hrest⟩ := Option.bind_eq_some_iff.mp h
    exact (keeps_execute hinsts.1 hs).trans (ih hinsts.2 hrest)

end Processor

/-- The registers that inline code may change. -/
def scratch : List Register := [rax, rcx, rdx]

/-- The inline code of an operation changes the three scratch registers only. -/
theorem changesOnly_inlineCode {op : BinOp} {insts : List Instruction} (h : inlineCode? op = some insts) :
  insts.all (·.changesOnly scratch) = true
  := by
  cases op <;> cases h <;> decide

/-! ### Instructions -/

section

variable (m : Image) (f : IR.Function) (pos : Nat) (p : Processor)

/-- The code of an instruction computes a word into `rax` without a fault.  Until then it changes no
register but `rax`, `rcx` and `rdx` and leaves the memory alone; then it puts the word into the
destination, and `rax` keeps it. -/
def Computes (inst : Inst) (dest : OperandId) (w : Word) : Prop :=
  ∃ code write q q', instCode f pos inst = .ok (code ++ write) ∧ writeOperand f pos dest = .ok write ∧
    p.runCode m code = some q ∧ q.registers rax = w ∧ Processor.Keeps scratch p q ∧
    q.runCode m write = some q' ∧ q'.registers rax = w ∧ operandWord? m f q' dest = some w

end

variable {m : Image} {f : IR.Function} {pos : Nat} {p : Processor} {lhs rhs src dest : OperandId}
  {a b w : Word}

/-- The two operands are read into `rax` and `rcx`, which overwrites neither of them. -/
theorem computes_binary {op : BinOp} {insts : List Instruction} (hinline : inlineCode? op = some insts)
    (hrun : ∀ p : Processor, p.registers rax = a → p.registers rcx = b →
      ∃ q, Processor.run insts p = some q ∧ q.registers rax = w)
    (ha : operandWord? m f p lhs = some a) (hb : operandWord? m f p rhs = some b)
    (hlhs : (f.operand lhs).register ≠ some rcx) (hdest : f.isTemp dest = true) :
  Computes m f pos p (.binary op dest lhs rhs) dest w
  := by
  obtain ⟨left, hleft, rfl⟩ := Option.map_eq_some_iff.mp ha
  obtain ⟨right, hright, rfl⟩ := Option.map_eq_some_iff.mp hb
  have hfirst : Processor.Keeps [rcx] p (p.set rcx (right.word m p)) := Processor.Keeps.set (by decide) _
  -- The second operand is in `rcx` by then, and the first one is not there.
  have hsecond : left.word m (p.set rcx (right.word m p)) = left.word m p := by
    apply Source.word_of_keeps hfirst (by decide)
    rintro r rfl
    rcases register_of_source hleft with hr | rfl
    · rintro hmem
      rw [List.mem_singleton.mp hmem] at hr
      exact hlhs hr
    · decide
  obtain ⟨q, hq, hresult⟩ := hrun ((p.set rcx (right.word m p)).set rax (left.word m p)) rfl rfl
  obtain ⟨write, q', hwrite, hq', hkept, hword⟩ := runCode_writeTemp (m := m) (p := q) hdest pos
  refine ⟨right.code rcx ++ left.code rax ++ codes insts, write, q, q', ?_, hwrite, ?_, hresult, ?_, hq',
    hkept.trans hresult, hword.trans (congrArg some hresult)⟩
  · unfold instCode binaryCode
    simp only [hinline, loadOperand_of_source hright, loadOperand_of_source hleft, hwrite, bind, Except.bind]
    rfl
  · rw [Processor.runCode_append, Processor.runCode_append, Source.runCode_code]
    simp only [Option.bind_some, Source.runCode_code, hsecond]
    rw [Processor.runCode_codes]
    exact hq
  · have hloads : Processor.Keeps scratch p ((p.set rcx (right.word m p)).set rax (left.word m p)) :=
      (Processor.Keeps.set (by decide) _).trans (Processor.Keeps.set (by decide) _)
    exact hloads.trans (Processor.keeps_run (changesOnly_inlineCode hinline) hq)

/-- A unary operation computes what its instruction leaves in `rax`. -/
theorem computes_unary {op : UnOp}
    (hrun : ∀ p : Processor, p.registers rax = a →
      ∃ q, p.execute (unaryCode op) = some q ∧ q.registers rax = w)
    (ha : operandWord? m f p src = some a) (hdest : f.isTemp dest = true) :
  Computes m f pos p (.unary op dest src) dest w
  := by
  obtain ⟨source, hsource, rfl⟩ := Option.map_eq_some_iff.mp ha
  obtain ⟨q, hq, hresult⟩ := hrun (p.set rax (source.word m p)) rfl
  obtain ⟨write, q', hwrite, hq', hkept, hword⟩ := runCode_writeTemp (m := m) (p := q) hdest pos
  have hcode : Processor.run [unaryCode op] (p.set rax (source.word m p)) = some q := by
    rw [Processor.run_cons, hq]
    rfl
  refine ⟨source.code rax ++ codes [unaryCode op], write, q, q', ?_, hwrite, ?_, hresult, ?_, hq',
    hkept.trans hresult, hword.trans (congrArg some hresult)⟩
  · unfold instCode
    simp only [loadOperand_of_source hsource, hwrite, bind, Except.bind]
    rfl
  · rw [Processor.runCode_append, Source.runCode_code]
    simp only [Option.bind_some]
    rw [Processor.runCode_codes]
    exact hcode
  · have hload : Processor.Keeps scratch p (p.set rax (source.word m p)) := Processor.Keeps.set (by decide) _
    apply hload.trans
    apply Processor.keeps_run _ hcode
    cases op <;> decide

/-- The code of inline operations is exact.  On the words of integers it leaves eight times the sum,
difference, product, truncated quotient or negation, as far as a word holds it, and the word of a
comparison; a division by anything but zero does not fault.  On the words of truth values it leaves
that of the result.  It does so wherever the operands are: the left one is not in `rcx`, which the
right one is loaded to and which is no register of the pool. -/
theorem computes_exactly (ha : operandWord? m f p lhs = some a) (hb : operandWord? m f p rhs = some b)
    (hlhs : (f.operand lhs).register ≠ some rcx) (hdest : f.isTemp dest = true) :
  (a.tag = .integer → b.tag = .integer → ∀ op w, (op = .div → b ≠ 0) →
    op.exact? (Word.toInt a).toInt (Word.toInt b).toInt = some w →
      Computes m f pos p (.binary op dest lhs rhs) dest w) ∧
  (a.tag = .integer → Computes m f pos p (.unary .neg dest lhs) dest (Word.ofExact (-(Word.toInt a).toInt))) ∧
  (∀ x y, a = Word.ofBool x → b = Word.ofBool y → ∀ op w, op.truth? x y = some w →
    Computes m f pos p (.binary op dest lhs rhs) dest w) ∧
  (∀ x, a = Word.ofBool x → Computes m f pos p (.unary .not dest lhs) dest (Word.ofBool !x))
  := by
  refine ⟨?_, ?_, ?_, ?_⟩
  · intro hatag hbtag op w hzero hw
    obtain ⟨insts, hinline, hrun⟩ := run_exact hatag hbtag hzero hw
    exact computes_binary hinline hrun ha hb hlhs hdest
  · intro hatag
    apply computes_unary _ ha hdest
    intro p hrax
    refine ⟨_, rfl, ?_⟩
    change 0 - p.registers rax = _
    rw [hrax, ← Word.ofInt_toInt hatag, Word.ofInt_neg, Word.ofInt_toInt hatag]
    exact Word.ofInt_eq_ofExact (Int64.toInt_neg _)
  · rintro x y rfl rfl op w hw
    obtain ⟨insts, hinline, hrun⟩ := run_truth hw
    exact computes_binary hinline hrun ha hb hlhs hdest
  · rintro x rfl
    apply computes_unary _ ha hdest
    intro p hrax
    refine ⟨_, rfl, ?_⟩
    change p.registers rax ^^^ _ = _
    rw [hrax]
    cases x <;> rfl

/-- A function with a temp in a register, one in the frame, and one for their quotient. -/
def quotientFunction : IR.Function where
  name := "quotient"
  operands := #[{ IR.Operand.ofKind (.temp 0) with register := some .r12 }, .ofKind (.temp 1),
    { IR.Operand.ofKind (.temp 2) with register := some .rbx }]

/-- A state in which the first temp is the least integer and the second one is minus one. -/
def leastByMinusOne : Processor :=
  Processor.store ⟨fun r => if r = .r12 then Word.ofInt (-1152921504606846976) else 4096, none, fun _ => 0⟩
    (4096 - 40) (Word.ofInt (-1))

/-- An image without addresses. -/
def blankImage : Image := ⟨fun _ => 0, fun _ => 0⟩

/-- The quotient of the least integer by minus one has one bit more than a payload. -/
theorem computes_exactly_least :
  operandWord? blankImage quotientFunction leastByMinusOne 0 = some (Word.ofInt (-1152921504606846976)) ∧
    operandWord? blankImage quotientFunction leastByMinusOne 1 = some (Word.ofInt (-1)) ∧
    Computes blankImage quotientFunction 0 leastByMinusOne (.binary .div 2 0 1) 2
      (Word.ofExact 1152921504606846976)
  := by
  have ha : operandWord? blankImage quotientFunction leastByMinusOne 0
      = some (Word.ofInt (-1152921504606846976)) := rfl
  have hb : operandWord? blankImage quotientFunction leastByMinusOne 1 = some (Word.ofInt (-1)) :=
    congrArg some (Processor.load_store_self _ _)
  refine ⟨ha, hb, ?_⟩
  exact (computes_exactly ha hb (by decide) (by decide)).1 (by decide) (by decide) .div _ (by decide)
    (by decide)

end Machine

end StackCompiler
