import StackCompiler.Machine.Codegen
import StackCompiler.Proofs.Machine.Processor
import StackCompiler.Proofs.Meaning.Folding

/-!
# Folding and inline code

Constant folding computes with literals of 64 bits and cuts the result to the 61 bits of a payload.
Inline code computes with words, which hold no more of a literal than its payload.  So inline code
gives what folding gives on the payloads of the literals: for sums, differences, products and
negation that is what folding gives on the literals themselves, and for quotients and comparisons
it is so for literals that fit.
-/

namespace StackCompiler

open Bytecode (Constant)

namespace Word

/-- Cutting a literal leaves the integer of 61 bits that is congruent to it. -/
theorem toInt_wrap (n : Int64) :
  (wrap n).toInt = n.toInt.bmod (2 ^ 61)
  := by
  rw [← toInt_of_isSmall (isSmall_wrap n), setWidth_wrap, toInt_setWidth]

/-- Integers with the same payload are cut to the same integer. -/
theorem wrap_congr {n m : Int64} (h : n.toInt.bmod (2 ^ 61) = m.toInt.bmod (2 ^ 61)) :
  wrap n = wrap m
  := by
  apply Int64.toInt_inj.mp
  rw [toInt_wrap, toInt_wrap, h]

theorem wrap_of_isSmall {n : Int64} (h : (Constant.integer n).IsSmall) :
  wrap n = n
  := by
  apply Int64.toInt_inj.mp
  rw [toInt_wrap, ← toInt_setWidth, toInt_of_isSmall h]

/-- Words are told apart by their numbers. -/
theorem eq_of_toInt {v w : Word} (h : v.toInt64.toInt = w.toInt64.toInt) :
  v = w
  := by
  rw [← UInt64.toUInt64_toInt64 v, ← UInt64.toUInt64_toInt64 w, Int64.toInt_inj.mp h]

/-- The word of an integer as a number. -/
theorem toInt_ofInt (n : Int64) :
  (ofInt n).toInt64.toInt = (8 * n.toInt).bmod (2 ^ 64)
  := by
  change (n.toBitVec <<< 3).toInt = (8 * n.toBitVec.toInt).bmod (2 ^ 64)
  rw [BitVec.toInt_shiftLeft, Nat.shiftLeft_eq, BitVec.toInt_eq_toNat_bmod, Int.mul_bmod_bmod,
    Int.mul_comm]
  rfl

/-- The word of an integer that fits is eight times the integer. -/
theorem toInt_ofInt_of_isSmall {n : Int64} (h : (Constant.integer n).IsSmall) :
  (ofInt n).toInt64.toInt = 8 * n.toInt
  := by
  obtain ⟨hle, hlt⟩ := h
  rw [toInt_ofInt]
  apply Int.bmod_eq_of_le <;> omega

/-- What is cut off does not show in a word. -/
theorem ofInt_wrap (n : Int64) :
  ofInt (wrap n) = ofInt n
  := by
  apply eq_of_toInt
  rw [toInt_ofInt, toInt_ofInt, toInt_wrap]
  simp only [Int.bmod_def]
  omega

/-- The sum of the words of integers is the word of their sum. -/
theorem ofInt_add (n m : Int64) :
  ofInt n + ofInt m = ofInt (n + m)
  := by
  apply eq_of_toInt
  rw [UInt64.toInt64_add, Int64.toInt_add, toInt_ofInt, toInt_ofInt, toInt_ofInt, Int64.toInt_add,
    Int.bmod_add_bmod, Int.add_bmod_bmod, Int.mul_bmod_bmod, Int.mul_add]

/-- The difference of the words of integers is the word of their difference. -/
theorem ofInt_sub (n m : Int64) :
  ofInt n - ofInt m = ofInt (n - m)
  := by
  apply eq_of_toInt
  rw [UInt64.toInt64_sub, Int64.toInt_sub, toInt_ofInt, toInt_ofInt, toInt_ofInt, Int64.toInt_sub,
    Int.bmod_sub_bmod, Int.sub_bmod_bmod, Int.mul_bmod_bmod, Int.mul_sub]

/-- The negative of the word of an integer is the word of its negative. -/
theorem ofInt_neg (n : Int64) :
  0 - ofInt n = ofInt (-n)
  := by
  have h := ofInt_sub 0 n
  rw [Int64.zero_sub] at h
  apply h

/-- A shift to the right divides by a power of two, rounding down. -/
theorem toInt_shiftRight (n : Int64) {k : Nat} {m : Int64}
    (hm : (m.toBitVec.smod 64).toNat = k) :
  (n >>> m).toInt = n.toInt / 2 ^ k
  := by
  change (n.toBitVec.sshiftRight (m.toBitVec.smod 64).toNat).toInt = n.toBitVec.toInt / 2 ^ k
  rw [hm, BitVec.toInt_sshiftRight, Int.shiftRight_eq_div_pow]
  norm_cast

/-- A product takes the payload of one of the words only. -/
theorem ofInt_mul {n : Int64} (h : (Constant.integer n).IsSmall) (m : Int64) :
  ((ofInt n).toInt64 >>> 3).toUInt64 * ofInt m = ofInt (n * m)
  := by
  have hshift : (ofInt n).toInt64 >>> 3 = n := by
    apply Int64.toInt_inj.mp
    rw [toInt_shiftRight _ (show _ = 3 from rfl), toInt_ofInt_of_isSmall h]
    omega
  rw [hshift]
  apply eq_of_toInt
  rw [UInt64.toInt64_mul, Int64.toInt_mul, Int64.toInt64_toUInt64, toInt_ofInt, toInt_ofInt,
    Int64.toInt_mul, Int.mul_bmod_bmod, Int.mul_bmod_bmod, Int.mul_left_comm]

/-- The number that `rdx` and `rax` hold together once the sign of `rax` is extended. -/
theorem extended_eq (w : Word) :
  (w.toInt64 >>> 63).toUInt64.toInt64.toInt * 2 ^ 64 + w.toNat = w.toInt64.toInt
  := by
  have hcond : w.toInt64.toInt = if 2 * w.toNat < 2 ^ 64 then (w.toNat : Int) else w.toNat - 2 ^ 64 :=
    BitVec.toInt_eq_toNat_cond w.toBitVec
  have hlt := w.toNat_lt
  rw [Int64.toInt64_toUInt64, toInt_shiftRight _ (show _ = 63 from rfl), hcond]
  split <;> omega

theorem toNat_and_tagMask (w : Word) :
  (w &&& tagMask).toNat = w.toNat % 8
  := by
  rw [UInt64.toNat_and]
  exact Nat.and_two_pow_sub_one_eq_mod w.toNat 3

/-- The words of integers are the multiples of eight. -/
theorem tag_eq_integer_iff {w : Word} :
  w.tag = .integer ↔ w.toNat % 8 = 0
  := by
  rw [← toNat_and_tagMask, ← UInt64.toNat_zero, UInt64.toNat_inj]
  unfold tag
  constructor
  · intro h
    by_contra hne
    rw [if_neg hne] at h
    split at h
    · cases h
    · split at h <;> cases h
  · exact fun h => if_pos h

end Word

/-- The word that the literal of a scalar is loaded as. -/
def Bytecode.Constant.word? : Constant → Option Word
  | .none => some Word.noneWord
  | .boolean b => some (Word.ofBool b)
  | .integer n => some (Word.ofInt (Word.wrap n))
  | .string _ => Option.none

namespace Machine

open IR (OperandId BinOp UnOp Inst)
open Register (rax rcx rdx)

/-- The operations on integers with inline code. -/
def arithmetic : List BinOp := [.intAdd, .sub, .mul, .div, .gt, .geq, .fastEq]

/-! ### Inline code on words -/

/-- Comparing code leaves the truth of its condition. -/
theorem run_compareCode (cond : Condition) (p : Processor) :
  ∃ p', Processor.run (compareCode cond) p = some p' ∧
    p'.registers rax = Word.ofBool (cond.holds (.ofCompare (p.registers rax) (p.registers rcx)))
  := by
  cases hholds : cond.holds (.ofCompare (p.registers rax) (p.registers rcx)) with
  | false => simp [compareCode, Processor.combine, hholds, Word.ofBool]
  | true => simp [compareCode, Processor.combine, hholds, Word.ofBool]

section

variable {a b : Int64} {p : Processor} (ha : (Constant.integer a).IsSmall)
  (hb : (Constant.integer b).IsSmall) (hrax : p.registers rax = Word.ofInt a)
  (hrcx : p.registers rcx = Word.ofInt b)

include ha hb hrax hrcx

/-- Dividing code leaves the quotient of payloads. -/
theorem run_div (hzero : Word.ofInt b ≠ 0) :
  ∃ p', Processor.run [.cqo, .idiv rcx, .shift .shl rax 3] p = some p' ∧
    p'.registers rax = Word.ofInt (a / b)
  := by
  have hquotient : (Word.ofInt a).toInt64.toInt.tdiv (Word.ofInt b).toInt64.toInt
      = a.toInt.tdiv b.toInt := by
    rw [Word.toInt_ofInt_of_isSmall ha, Word.toInt_ofInt_of_isSmall hb]
    exact Int.mul_tdiv_mul_of_pos _ _ (by decide)
  have habs := Int.natAbs_tdiv_le_natAbs a.toInt b.toInt
  obtain ⟨hle, hlt⟩ := ha
  have hdiv : Int64.ofInt (a.toInt.tdiv b.toInt) = a / b := by
    apply Int64.toInt_inj.mp
    rw [Int64.toInt_div, Int64.toInt_ofInt]
  obtain ⟨p', hp', hresult⟩ := Processor.exists_divide
    (p := p.set rdx ((p.registers rax).toInt64 >>> 63).toUInt64) (n := (Word.ofInt a).toInt64.toInt)
    (by simpa [hrax] using Word.extended_eq (Word.ofInt a)) hzero (by omega) (by omega)
  rw [hquotient, hdiv] at hresult
  refine ⟨(p'.set rax (p'.registers rax <<< 3)).clobber, ?_, ?_⟩
  · simp [hrcx, hp']
  · simp [hresult]
    rfl

/-- Words of payloads compare as the payloads do. -/
theorem holds_ofCompare (cond : Condition) :
  cond.holds (.ofCompare (p.registers rax) (p.registers rcx))
    = match cond with
      | .equal => decide (a = b)
      | .greater => decide (b < a)
      | .greaterEqual => decide (b ≤ a)
  := by
  have hl := Word.toInt_ofInt_of_isSmall ha
  have hr := Word.toInt_ofInt_of_isSmall hb
  have heq : Word.ofInt a = Word.ofInt b ↔ a = b := by
    refine ⟨fun h => Int64.toInt_inj.mp ?_, congrArg _⟩
    rw [h] at hl
    omega
  have hle : (Word.ofInt b).toInt64 ≤ (Word.ofInt a).toInt64 ↔ b ≤ a := by
    rw [Int64.le_iff_toInt_le, Int64.le_iff_toInt_le]
    omega
  rw [hrax, hrcx]
  cases cond with
  | equal => simp only [Condition.holds, Flags.zero_ofCompare, heq]
  | greater =>
    simp only [Condition.holds, Flags.zero_ofCompare, Flags.sign_ofCompare, heq, hle]
    rw [Bool.eq_iff_iff]
    simp only [Bool.and_eq_true, Bool.not_eq_true', decide_eq_false_iff_not, decide_eq_true_eq,
      Int64.lt_iff_toInt_lt, Int64.le_iff_toInt_le, ← Int64.toInt_inj]
    omega
  | greaterEqual => simp only [Condition.holds, Flags.sign_ofCompare, hle]

end

/-- Inline code on the words of payloads leaves the word of what folding gives on these. -/
theorem run_inlineCode {op : BinOp} (hop : op ∈ arithmetic) {a b : Int64}
    (ha : (Constant.integer a).IsSmall) (hb : (Constant.integer b).IsSmall)
    (hzero : op = .div → Word.ofInt b ≠ 0) :
  ∃ insts c w, inlineCode? op = some insts ∧ op.fold (.integer a) (.integer b) = .ok (some c) ∧
    c.word? = some w ∧ ∀ p : Processor, p.registers rax = Word.ofInt a →
      p.registers rcx = Word.ofInt b → ∃ p', Processor.run insts p = some p' ∧ p'.registers rax = w
  := by
  have hcompare : ∀ cond (p : Processor), p.registers rax = Word.ofInt a →
      p.registers rcx = Word.ofInt b → ∃ p', Processor.run (compareCode cond) p = some p' ∧
        p'.registers rax = Word.ofBool (match cond with
          | .equal => decide (a = b)
          | .greater => decide (b < a)
          | .greaterEqual => decide (b ≤ a)) := by
    intro cond p hrax hrcx
    rw [← holds_ofCompare ha hb hrax hrcx cond]
    apply run_compareCode
  cases op with
  | intAdd =>
    refine ⟨_, _, _, rfl, rfl, rfl, fun p hrax hrcx => ⟨_, rfl, ?_⟩⟩
    simp [Processor.combine, hrax, hrcx, Word.ofInt_add, Word.ofInt_wrap]
  | sub =>
    refine ⟨_, _, _, rfl, rfl, rfl, fun p hrax hrcx => ⟨_, rfl, ?_⟩⟩
    simp [Processor.combine, hrax, hrcx, Word.ofInt_sub, Word.ofInt_wrap]
  | mul =>
    refine ⟨_, _, _, rfl, rfl, rfl, fun p hrax hrcx => ⟨_, rfl, ?_⟩⟩
    simp [Word.ofInt_wrap, hrax, hrcx, ← Word.ofInt_mul ha b]
  | div =>
    have hb0 : b ≠ 0 := by
      rintro rfl
      exact hzero rfl rfl
    have hfold : BinOp.div.fold (.integer a) (.integer b)
        = .ok (some (.integer (Word.wrap (a / b)))) := if_neg hb0
    refine ⟨_, _, _, rfl, hfold, rfl, fun p hrax hrcx => ?_⟩
    rw [Word.ofInt_wrap, Word.ofInt_wrap]
    apply run_div ha hb hrax hrcx (hzero rfl)
  | gt => exact ⟨_, _, _, rfl, rfl, rfl, hcompare .greater⟩
  | geq => exact ⟨_, _, _, rfl, rfl, rfl, hcompare .greaterEqual⟩
  | fastEq =>
    refine ⟨_, _, _, rfl, rfl, rfl, fun p hrax hrcx => ?_⟩
    simpa using hcompare .equal p hrax hrcx
  | add | eq | and | or => simp [arithmetic] at hop

/-! ### Code of instructions -/

/-- Code that leaves a word in `rax`, whatever it starts from. -/
def Leaves (e : Emit) (w : Word) : Prop :=
  ∃ insts, e = .ok (codes insts) ∧
    ∀ p, ∃ p', Processor.run insts p = some p' ∧ p'.registers rax = w

/-- Code leaves one word at most. -/
theorem Leaves.unique {e : Emit} {v w : Word} (hv : Leaves e v) (hw : Leaves e w) :
  v = w
  := by
  obtain ⟨is, rfl, his⟩ := hv
  obtain ⟨js, hjs, hrun⟩ := hw
  have heq : is = js := by
    apply (List.map_inj_right _).mp (Except.ok.inj hjs)
    intro i j h
    cases h
    rfl
  obtain ⟨p, hp, rfl⟩ := his ⟨fun _ => 0, none, fun _ => 0⟩
  obtain ⟨q, hq, rfl⟩ := hrun ⟨fun _ => 0, none, fun _ => 0⟩
  rw [heq, hq] at hp
  cases hp
  rfl

theorem loadConstant_eq (dst : Register) {c : Constant} {w : Word} (h : c.word? = some w) :
  loadConstant dst c = codes [.setTo dst w]
  := by
  cases c <;> cases h <;> rfl

/-- The code that loads the literal of a scalar leaves its word. -/
theorem leaves_loadConstant {c : Constant} {w : Word} (h : c.word? = some w) :
  Leaves (.ok (loadConstant rax c)) w
  := by
  refine ⟨[.setTo rax w], by rw [loadConstant_eq rax h], fun p => ?_⟩
  simp

theorem codes_append (is js : List Instruction) :
  codes is ++ codes js = codes (is ++ js)
  := List.map_append.symm

variable {f : IR.Function}

/-- The load of a literal is the load of its constant. -/
theorem loadOperand_const {x : OperandId} {c : Constant} (h : f.kind x = .const c) (dst : Register) :
  loadOperand f dst x = .ok (loadConstant dst c)
  := by
  change (f.operand x).kind = _ at h
  unfold loadOperand
  simp only [h]

/-- Writing a temp leaves `rax` as it is. -/
theorem exists_writeTemp {dest : OperandId} (h : f.isTemp dest = true) (pos : Nat) :
  ∃ insts, writeOperand f pos dest = .ok (codes insts) ∧
    ∀ p, ∃ p', Processor.run insts p = some p' ∧ p'.registers rax = p.registers rax
  := by
  obtain ⟨n, hn⟩ := IR.Function.isTemp_iff.mp h
  change (f.operand dest).kind = _ at hn
  unfold writeOperand
  simp only [hn]
  cases (f.operand dest).register with
  | none => exact ⟨[storeSlot (Frame.temp n) rax], rfl, fun p => ⟨_, rfl, rfl⟩⟩
  | some r =>
    by_cases hr : r = rax
    · subst hr
      exact ⟨[], rfl, fun p => ⟨p, rfl, rfl⟩⟩
    · refine ⟨[.mov r rax], by simp [moveTo, hr], fun p => ⟨_, rfl, ?_⟩⟩
      simp [Ne.symm hr]

/-- Code that leaves a word leaves it also when it goes on to write it to a temp. -/
theorem Leaves.write {e : Emit} {w : Word} (he : Leaves e w) {dest : OperandId}
    (h : f.isTemp dest = true) (pos : Nat) :
  Leaves (do return (← e) ++ (← writeOperand f pos dest)) w
  := by
  obtain ⟨insts, rfl, hrun⟩ := he
  obtain ⟨writing, hwriting, hwrite⟩ := exists_writeTemp h pos
  refine ⟨insts ++ writing, by rw [hwriting, ← codes_append]; rfl, fun p => ?_⟩
  obtain ⟨p₁, hp₁, hw⟩ := hrun p
  obtain ⟨p₂, hp₂, hkeep⟩ := hwrite p₁
  refine ⟨p₂, ?_, hkeep.trans hw⟩
  rw [Processor.run_append, hp₁, Option.bind_some, hp₂]

/-- Sums, differences and products do not see what payloads lack. -/
theorem fold_wrap {op : BinOp} (h : op ∈ [.intAdd, .sub, .mul]) (a b : Int64) :
  op.fold (.integer (Word.wrap a)) (.integer (Word.wrap b)) = op.fold (.integer a) (.integer b)
  := by
  have hcongr : ∀ x y : Int64, x.toInt.bmod (2 ^ 61) = y.toInt.bmod (2 ^ 61) →
      (Except.ok (some (Constant.integer (Word.wrap x))) : Except CompileError (Option Constant))
        = .ok (some (.integer (Word.wrap y))) := by
    intro x y hxy
    rw [Word.wrap_congr hxy]
  simp only [List.mem_cons, List.not_mem_nil, or_false] at h
  rcases h with rfl | rfl | rfl
  · apply hcongr
    rw [Int64.toInt_add, Int64.toInt_add, Int.bmod_bmod_of_dvd (by decide),
      Int.bmod_bmod_of_dvd (by decide), Word.toInt_wrap, Word.toInt_wrap, Int.bmod_add_bmod,
      Int.add_bmod_bmod]
  · apply hcongr
    rw [Int64.toInt_sub, Int64.toInt_sub, Int.bmod_bmod_of_dvd (by decide),
      Int.bmod_bmod_of_dvd (by decide), Word.toInt_wrap, Word.toInt_wrap, Int.bmod_sub_bmod,
      Int.sub_bmod_bmod]
  · apply hcongr
    rw [Int64.toInt_mul, Int64.toInt_mul, Int.bmod_bmod_of_dvd (by decide),
      Int.bmod_bmod_of_dvd (by decide), Word.toInt_wrap, Word.toInt_wrap, Int.bmod_mul_bmod,
      Int.mul_bmod_bmod]

/-- The code of an operation on literals leaves the word of what folding gives on their payloads. -/
theorem exists_leaves_binary {op : BinOp} (hop : op ∈ arithmetic) {dest x y : OperandId}
    (hdest : f.isTemp dest = true) {a b : Int64} (hx : f.kind x = .const (.integer a))
    (hy : f.kind y = .const (.integer b)) (hzero : op = .div → Word.ofInt (Word.wrap b) ≠ 0)
    (pos : Nat) :
  ∃ c w, op.fold (.integer (Word.wrap a)) (.integer (Word.wrap b)) = .ok (some c) ∧
    Leaves (instCode f pos (.binary op dest x y)) w ∧ Leaves (.ok (loadConstant rax c)) w
  := by
  obtain ⟨insts, c, w, hcode, hfold, hword, hrun⟩ :=
    run_inlineCode hop (Word.isSmall_wrap a) (Word.isSmall_wrap b) hzero
  refine ⟨c, w, hfold, ?_, leaves_loadConstant hword⟩
  have hbinary : Leaves (binaryCode f pos op x y) w := by
    refine ⟨[.setTo rcx (Word.ofInt (Word.wrap b)), .setTo rax (Word.ofInt (Word.wrap a))] ++ insts,
      ?_, fun p => ?_⟩
    · unfold binaryCode
      simp only [hcode, loadOperand_const hx, loadOperand_const hy, loadConstant]
      rfl
    · rw [Processor.run_append]
      simp only [Processor.run_cons, Processor.execute_setTo, Option.bind_some, Processor.run_nil]
      apply hrun <;> simp
  apply hbinary.write hdest

/-- The code of a negation of a literal leaves the word of what folding gives. -/
theorem leaves_neg {dest x : OperandId} (hdest : f.isTemp dest = true) {a : Int64}
    (hx : f.kind x = .const (.integer a)) (pos : Nat) :
  Leaves (instCode f pos (.unary .neg dest x)) (Word.ofInt (-a))
  := by
  have hneg : Leaves (.ok (loadConstant rax (.integer a) ++ codes [unaryCode .neg]))
      (Word.ofInt (-a)) := by
    refine ⟨[.setTo rax (Word.ofInt (Word.wrap a)), .neg rax], rfl, fun p => ?_⟩
    simp [Word.ofInt_wrap, ← Word.ofInt_neg]
  simp only [instCode]
  rw [loadOperand_const hx]
  apply hneg.write hdest

/-- Inline code agrees with folding on the payloads of literals.  So it agrees with folding on the
literals for sums, differences, products and negation, and for quotients and comparisons of
literals that fit. -/
theorem folding_agrees (f : IR.Function) (pos : Nat) {dest x y : OperandId}
    (hdest : f.isTemp dest = true) {a b : Int64} (hx : f.kind x = .const (.integer a))
    (hy : f.kind y = .const (.integer b)) :
  (∀ op ∈ arithmetic, (op = .div → Word.ofInt (Word.wrap b) ≠ 0) →
    ∃ c w, op.fold (.integer (Word.wrap a)) (.integer (Word.wrap b)) = .ok (some c) ∧
      Leaves (instCode f pos (.binary op dest x y)) w ∧ Leaves (.ok (loadConstant rax c)) w ∧
      (op ∈ [.intAdd, .sub, .mul] ∨ (Constant.integer a).IsSmall ∧ (Constant.integer b).IsSmall →
        op.fold (.integer a) (.integer b) = .ok (some c))) ∧
  ∃ c w, UnOp.neg.fold (.integer a) = .ok (some c) ∧
    Leaves (instCode f pos (.unary .neg dest x)) w ∧ Leaves (.ok (loadConstant rax c)) w
  := by
  constructor
  · intro op hop hzero
    obtain ⟨c, w, hfold, hcode, hload⟩ := exists_leaves_binary hop hdest hx hy hzero pos
    refine ⟨c, w, hfold, hcode, hload, ?_⟩
    rintro (harithmetic | ⟨ha, hb⟩)
    · rw [← fold_wrap harithmetic, hfold]
    · rw [Word.wrap_of_isSmall ha, Word.wrap_of_isSmall hb] at hfold
      apply hfold
  · refine ⟨_, _, rfl, leaves_neg hdest hx pos, ?_⟩
    have h := leaves_loadConstant (c := .integer (Word.wrap (-a))) rfl
    rw [Word.ofInt_wrap, Word.ofInt_wrap] at h
    apply h

/-- Two integer literals and a temp. -/
def literals (a b : Int64) : IR.Function where
  name := "literals"
  operands := #[.ofKind (.const (.integer a)), .ofKind (.const (.integer b)), .ofKind (.temp 0)]

/-- Folding and code both cut the quotient of -9 and 4 towards zero. -/
theorem folding_agrees_quotient :
  (literals (-9) 4).isTemp 2 = true ∧
  BinOp.div.fold (.integer (-9)) (.integer 4) = .ok (some (.integer (-2))) ∧
  ∃ w, Leaves (instCode (literals (-9) 4) 0 (.binary .div 2 0 1)) w ∧
    Leaves (.ok (loadConstant rax (.integer (-2)))) w
  := by
  have hdest : (literals (-9) 4).isTemp 2 = true := rfl
  have hx : (literals (-9) 4).kind 0 = .const (.integer (-9)) := rfl
  have hy : (literals (-9) 4).kind 1 = .const (.integer 4) := rfl
  have hc : BinOp.div.fold (.integer (-9)) (.integer 4) = .ok (some (.integer (-2))) := by decide
  obtain ⟨c, w, -, hcode, hload, hfold⟩ :=
    (folding_agrees (literals (-9) 4) 0 hdest hx hy).1 .div (by decide) (by decide)
  rw [hc] at hfold
  cases hfold (.inr (by decide))
  exact ⟨hdest, hc, w, hcode, hload⟩

/-- A literal that does not fit folds to a quotient that code does not compute. -/
theorem folding_differs_beyond_payloads :
  BinOp.div.fold (.integer (2 ^ 61)) (.integer 2) = .ok (some (.integer (-2 ^ 60))) ∧
  ∃ w, Leaves (instCode (literals (2 ^ 61) 2) 0 (.binary .div 2 0 1)) w ∧
    ¬ Leaves (.ok (loadConstant rax (.integer (-2 ^ 60)))) w
  := by
  have hdest : (literals (2 ^ 61) 2).isTemp 2 = true := rfl
  have hx : (literals (2 ^ 61) 2).kind 0 = .const (.integer (2 ^ 61)) := rfl
  have hy : (literals (2 ^ 61) 2).kind 1 = .const (.integer 2) := rfl
  have hop : BinOp.div ∈ arithmetic := by decide
  have hzero : BinOp.div = .div → Word.ofInt (Word.wrap 2) ≠ 0 := by decide
  obtain ⟨c, w, hfold, hcode, hload⟩ := exists_leaves_binary hop hdest hx hy hzero 0
  have hc : BinOp.div.fold (.integer (Word.wrap (2 ^ 61))) (.integer (Word.wrap 2))
      = .ok (some (.integer 0)) := by
    decide +kernel
  rw [hc] at hfold
  cases hfold
  refine ⟨by decide +kernel, w, hcode, fun h => ?_⟩
  have hw := hload.unique (leaves_loadConstant rfl)
  have hw' := h.unique (leaves_loadConstant rfl)
  rw [hw] at hw'
  revert hw'
  decide +kernel

end Machine

end StackCompiler
