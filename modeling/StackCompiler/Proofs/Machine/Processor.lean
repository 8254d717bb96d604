import Mathlib.Algebra.Group.Int.Defs
import StackCompiler.Proofs.Machine.Disassembly
import StackCompiler.Word

/-!
# Execution of machine instructions

A `Processor` has sixteen registers, a memory of bytes, and the flags by which comparisons tell
conditional moves what they found.  `Processor.execute` carries out an instruction that goes on to
the next one, and `Processor.run` a sequence of them.
-/

namespace StackCompiler.Machine

/-- What a comparison finds: that the difference is zero, its sign, and that it has more bits than
a register. -/
structure Flags where
  zero : Bool
  sign : Bool
  overflow : Bool

/-- The flags after the comparison of two words. -/
def Flags.ofCompare (l r : Word) : Flags where
  zero := l - r == 0
  sign := (l - r).toInt64 < 0
  overflow := l.toInt64.toInt - r.toInt64.toInt ≠ (l - r).toInt64.toInt

/-- Whether flags meet a condition. -/
def Condition.holds (flags : Flags) : Condition → Bool
  | equal => flags.zero
  | greater => !flags.zero && flags.sign == flags.overflow
  | greaterEqual => flags.sign == flags.overflow

/-- A state of the processor. -/
structure Processor where
  registers : Register → Word
  /-- The flags, unless the last instruction that changed them was no comparison. -/
  flags : Option Flags
  memory : UInt64 → UInt8

namespace Processor

/-- Puts a word into a register. -/
def set (p : Processor) (r : Register) (w : Word) : Processor :=
  { p with registers := fun other => if other = r then w else p.registers other }

/-- Leaves the flags undetermined. -/
def clobber (p : Processor) : Processor := { p with flags := none }

/-- The word at an address. -/
def load (p : Processor) (address : UInt64) : Word :=
  .ofNat (ofBytes ((List.range 8).map fun i => p.memory (address + .ofNat i)))

/-- Puts a word at an address. -/
def store (p : Processor) (address : UInt64) (w : Word) : Processor :=
  { p with memory := fun a => ((bytes64 w)[(a - address).toNat]?).getD (p.memory a) }

/-- The address of a memory operand. -/
def address (p : Processor) (base : Register) (disp : Int32) : UInt64 :=
  p.registers base + disp.toInt64.toUInt64

/-- Puts a word on the stack. -/
def push (p : Processor) (w : Word) : Processor :=
  let top := p.registers .rsp - 8
  (p.set .rsp top).store top w

/-- Takes a word from the stack into a register. -/
def pop (p : Processor) (r : Register) : Processor :=
  let top := p.registers .rsp
  (p.set .rsp (top + 8)).set r (p.load top)

/-- Divides `rdx` and `rax` together, as one number with a sign.  Division by zero and a quotient
that does not fit a register are faults. -/
def divide (p : Processor) (divisor : Word) : Option Processor :=
  let dividend := (p.registers .rdx).toInt64.toInt * 2 ^ 64 + (p.registers .rax).toNat
  let quotient := dividend.tdiv divisor.toInt64.toInt
  let remainder := dividend.tmod divisor.toInt64.toInt
  if divisor = 0 ∨ quotient < -2 ^ 63 ∨ 2 ^ 63 ≤ quotient then none
  else
    some ((p.set .rax (Int64.ofInt quotient).toUInt64).set .rdx (Int64.ofInt remainder).toUInt64).clobber

/-- The effect of an operation on two words, the first of which is in a register. -/
def combine (p : Processor) (op : RegisterOp) (dst : Register) (w : Word) : Processor :=
  let v := p.registers dst
  match op with
  | .add => (p.set dst (v + w)).clobber
  | .or => (p.set dst (v ||| w)).clobber
  | .and => (p.set dst (v &&& w)).clobber
  | .sub => (p.set dst (v - w)).clobber
  | .cmp => { p with flags := some (.ofCompare v w) }

/-- Carries out an instruction that goes on to the next one.  None for a fault, for a move under
flags that are undetermined, and for an instruction that goes elsewhere. -/
def execute (p : Processor) : Instruction → Option Processor
  | .mov dst src => some (p.set dst (p.registers src))
  | .load dst base disp => some (p.set dst (p.load (p.address base disp)))
  | .store base disp src => some (p.store (p.address base disp) (p.registers src))
  | .movSmall dst imm => some (p.set dst imm.toInt64.toUInt64)
  | .movWide dst imm => some (p.set dst imm)
  | .cmov cond dst src =>
    p.flags.map fun flags => if cond.holds flags then p.set dst (p.registers src) else p
  | .binary op dst src => some (p.combine op dst (p.registers src))
  | .binaryImm .add dst imm => some (p.combine .add dst imm.toInt64.toUInt64)
  | .binaryImm .sub dst imm => some (p.combine .sub dst imm.toInt64.toUInt64)
  | .binaryImm .cmp dst imm => some (p.combine .cmp dst imm.toInt64.toUInt64)
  | .binaryImm .xor dst imm =>
    some (p.set dst (p.registers dst ^^^ imm.toInt64.toUInt64)).clobber
  | .imul dst src => some (p.set dst (p.registers dst * p.registers src)).clobber
  | .cqo => some (p.set .rdx ((p.registers .rax).toInt64 >>> 63).toUInt64)
  | .idiv divisor => p.divide (p.registers divisor)
  | .neg dst => some (p.set dst (0 - p.registers dst)).clobber
  | .shift .shl dst amount => some (p.set dst (p.registers dst <<< amount.toUInt64)).clobber
  | .shift .sar dst amount =>
    some (p.set dst ((p.registers dst).toInt64 >>> amount.toUInt64.toInt64).toUInt64).clobber
  | .push src => some (p.push (p.registers src))
  | .pop dst => some (p.pop dst)
  | .leave => some ((p.set .rsp (p.registers .rbp)).pop .rbp)
  | .ret | .call _ | .jmp _ | .jmpShort _ | .je _ => none

/-- Carries out instructions one after the other. -/
def run (insts : List Instruction) (p : Processor) : Option Processor := insts.foldlM execute p

@[simp]
theorem registers_set (p : Processor) (r other : Register) (w : Word) :
  (p.set r w).registers other = if other = r then w else p.registers other
  := rfl

@[simp]
theorem flags_set (p : Processor) (r : Register) (w : Word) :
  (p.set r w).flags = p.flags
  := rfl

@[simp]
theorem registers_clobber (p : Processor) :
  p.clobber.registers = p.registers
  := rfl

@[simp]
theorem execute_cmov {p : Processor} {flags : Flags} (h : p.flags = some flags) (cond : Condition)
    (dst src : Register) :
  p.execute (.cmov cond dst src)
    = some (if cond.holds flags then p.set dst (p.registers src) else p)
  := by
  simp only [execute, h, Option.map_some]

@[simp]
theorem execute_binary (p : Processor) (op : RegisterOp) (dst src : Register) :
  p.execute (.binary op dst src) = some (p.combine op dst (p.registers src))
  := rfl

@[simp]
theorem execute_imul (p : Processor) (dst src : Register) :
  p.execute (.imul dst src) = some (p.set dst (p.registers dst * p.registers src)).clobber
  := rfl

@[simp]
theorem execute_cqo (p : Processor) :
  p.execute .cqo = some (p.set .rdx ((p.registers .rax).toInt64 >>> 63).toUInt64)
  := rfl

@[simp]
theorem execute_idiv (p : Processor) (divisor : Register) :
  p.execute (.idiv divisor) = p.divide (p.registers divisor)
  := rfl

@[simp]
theorem execute_neg (p : Processor) (dst : Register) :
  p.execute (.neg dst) = some (p.set dst (0 - p.registers dst)).clobber
  := rfl

@[simp]
theorem execute_shl (p : Processor) (dst : Register) (amount : UInt8) :
  p.execute (.shift .shl dst amount)
    = some (p.set dst (p.registers dst <<< amount.toUInt64)).clobber
  := rfl

@[simp]
theorem execute_sar (p : Processor) (dst : Register) (amount : UInt8) :
  p.execute (.shift .sar dst amount)
    = some (p.set dst ((p.registers dst).toInt64 >>> amount.toUInt64.toInt64).toUInt64).clobber
  := rfl

@[simp]
theorem run_cons (i : Instruction) (is : List Instruction) (p : Processor) :
  run (i :: is) p = (p.execute i).bind (run is)
  := List.foldlM_cons ..

@[simp]
theorem run_nil (p : Processor) :
  run [] p = some p
  := rfl

theorem run_append (is js : List Instruction) (p : Processor) :
  run (is ++ js) p = (run is p).bind (run js)
  := List.foldlM_append ..

/-- A division by a number other than zero whose quotient fits leaves the quotient in `rax`. -/
theorem exists_divide {p : Processor} {divisor : Word} {n : Int}
    (hn : (p.registers .rdx).toInt64.toInt * 2 ^ 64 + (p.registers .rax).toNat = n)
    (hdivisor : divisor ≠ 0) (hle : -2 ^ 63 ≤ n.tdiv divisor.toInt64.toInt)
    (hlt : n.tdiv divisor.toInt64.toInt < 2 ^ 63) :
  ∃ p', p.divide divisor = some p' ∧
    p'.registers .rax = (Int64.ofInt (n.tdiv divisor.toInt64.toInt)).toUInt64
  := by
  subst hn
  unfold divide
  rw [if_neg]
  · exact ⟨_, rfl, rfl⟩
  · rintro (h | h | h)
    · exact hdivisor h
    · omega
    · omega

end Processor

/-! ### What comparisons find -/

/-- A comparison finds a difference of zero if the words are equal. -/
theorem Flags.zero_ofCompare (l r : Word) :
  (ofCompare l r).zero = decide (l = r)
  := by
  simp only [ofCompare]
  grind

/-- The sign of the difference and the overflow are equal if the second word is at most the first,
with their signs. -/
theorem Flags.sign_ofCompare (l r : Word) :
  ((ofCompare l r).sign == (ofCompare l r).overflow) = decide (r.toInt64 ≤ l.toInt64)
  := by
  have hdiff : (l - r).toInt64.toInt = (l.toInt64.toInt - r.toInt64.toInt).bmod (2 ^ 64) := by
    rw [UInt64.toInt64_sub, Int64.toInt_sub]
  have hl := l.toInt64.toInt_lt
  have hl' := l.toInt64.le_toInt
  have hr := r.toInt64.toInt_lt
  have hr' := r.toInt64.le_toInt
  rw [Bool.eq_iff_iff]
  simp only [ofCompare, Int64.lt_iff_toInt_lt, Int64.le_iff_toInt_le, hdiff, beq_iff_eq,
    decide_eq_decide, decide_eq_true_eq, Int64.toInt_zero, Int.bmod_def]
  omega

/-- In a short form or a long one, the number is put into the register. -/
@[simp]
theorem Processor.execute_setTo (p : Processor) (dst : Register) (n : UInt64) :
  p.execute (.setTo dst n) = some (p.set dst n)
  := by
  unfold Instruction.setTo
  dsimp only
  split
  · rename_i h
    have hshort : (Int32.ofInt n.toInt64.toInt).toInt64 = n.toInt64 := by
      apply Int64.toInt_inj.mp
      rw [Int32.toInt_toInt64]
      apply Int32.toInt_ofInt_of_le <;> omega
    simp only [execute]
    rw [hshort, UInt64.toUInt64_toInt64]
  · rfl

end StackCompiler.Machine
