import StackCompiler.Proofs.Machine.Folding
import StackCompiler.Proofs.Machine.Memory

/-!
# Operands at run time

Loaded code refers to helpers and to strings by their addresses, which an `Image` gives.
`Processor.runCode` carries out loaded code, `operandWord?` is the word of an operand in a state of
the processor, and the code that reads an operand puts this word into a register and changes
nothing else.
-/

namespace StackCompiler.Machine

open Bytecode (Constant)
open IR (OperandId)
open Register (rax rcx rdx rsp rbp)

/-- The addresses that the loader fills into code. -/
structure Image where
  helper : Helper → UInt64
  string : String → UInt64

/-- The word that a literal is loaded as. -/
def Image.word (m : Image) : Constant → Word
  | .none => Word.noneWord
  | .boolean b => Word.ofBool b
  | .integer n => Word.ofInt (Word.wrap n)
  | .string s => m.string s

/-- The instruction that a piece of code is when it is loaded. -/
def Fragment.instruction? (m : Image) : Fragment → Option Instruction
  | .item (.code inst _) => some inst
  | .item _ => none
  | .helperAddress dst helper => some (.movWide dst (m.helper helper))
  | .stringAddress dst text => some (.movWide dst (m.string text))

namespace Processor

variable {m : Image} {p q : Processor}

/-- Carries out loaded code. -/
def runCode (m : Image) (code : List Fragment) (p : Processor) : Option Processor :=
  code.foldlM (fun p fragment => (fragment.instruction? m).bind p.execute) p

theorem runCode_append (code rest : List Fragment) :
  p.runCode m (code ++ rest) = (p.runCode m code).bind (runCode m rest)
  := List.foldlM_append ..

@[simp]
theorem runCode_codes (insts : List Instruction) :
  p.runCode m (codes insts) = run insts p
  := List.foldlM_map ..

/-- The word in an array whose address is in the frame. -/
def entry (p : Processor) (slot : Int32) (n : Nat) : Word :=
  p.load (p.load (p.address rbp slot) + (entryOffset n).toInt64.toUInt64)

/-- A move leaves the word of its source in its destination. -/
theorem runCode_moveTo (dst src : Register) :
  p.runCode m (moveTo dst src) = some (p.set dst (p.registers src))
  := by
  unfold moveTo
  split
  · rename_i h
    rw [h, set_self]
    rfl
  · rfl

theorem runCode_loadEntry (dst : Register) (slot : Int32) (n : Nat) :
  p.runCode m (loadEntry dst slot n) = some (p.set dst (p.entry slot n))
  := by
  unfold loadEntry loadSlot
  rw [runCode_codes]
  simp [run, execute, address, entry]

theorem runCode_loadConstant (dst : Register) (c : Constant) :
  p.runCode m (loadConstant dst c) = some (p.set dst (m.word c))
  := by
  cases c with
  | string s => rfl
  | none | boolean b | integer n =>
    simp [loadConstant, Image.word]

end Processor

/-! ### Sources -/

/-- Where a word is that code can read without a helper. -/
inductive Source where
  | register (r : Register)
  /-- A slot of the frame. -/
  | slot (disp : Int32)
  /-- An entry of an array whose address is in a slot of the frame. -/
  | entry (base : Int32) (n : Nat)
  | literal (c : Constant)
  | number (n : UInt64)

namespace Source

variable {m : Image} {p q : Processor}

/-- The code that reads a word into a register. -/
def code (dst : Register) : Source → List Fragment
  | register r => moveTo dst r
  | slot disp => codes [loadSlot dst disp]
  | entry base n => loadEntry dst base n
  | literal c => loadConstant dst c
  | number n => codes [.setTo dst n]

/-- The word in a source. -/
def word (m : Image) (p : Processor) : Source → Word
  | register r => p.registers r
  | slot disp => p.load (p.address rbp disp)
  | entry base n => p.entry base n
  | literal c => m.word c
  | number n => n

/-- The addresses of the words in memory that reading a source takes. -/
def addresses (p : Processor) : Source → List UInt64
  | slot disp => [p.address rbp disp]
  | entry base n =>
    [p.address rbp base, p.load (p.address rbp base) + (entryOffset n).toInt64.toUInt64]
  | _ => []

/-- Reading a source puts its word into a register and changes nothing else. -/
theorem runCode_code (source : Source) (dst : Register) :
  p.runCode m (source.code dst) = some (p.set dst (source.word m p))
  := by
  cases source with
  | register r => exact Processor.runCode_moveTo dst r
  | slot disp => rfl
  | entry base n => exact Processor.runCode_loadEntry dst base n
  | literal c => exact Processor.runCode_loadConstant dst c
  | number n => simp [code, word]

/-- The word in a source is the same in two states that agree on all that is read. -/
theorem word_congr {source : Source} (hbase : q.registers rbp = p.registers rbp)
    (hregister : ∀ r, source = .register r → q.registers r = p.registers r)
    (hload : ∀ a ∈ source.addresses p, q.load a = p.load a) :
  source.word m q = source.word m p
  := by
  have haddress : ∀ disp, q.address rbp disp = p.address rbp disp := by
    intro disp
    unfold Processor.address
    rw [hbase]
  cases source with
  | register r => exact hregister r rfl
  | slot disp =>
    change q.load (q.address rbp disp) = _
    rw [haddress]
    exact hload _ List.mem_cons_self
  | entry base n =>
    change q.load (q.load (q.address rbp base) + _) = _
    rw [haddress, hload _ List.mem_cons_self]
    exact hload _ (List.mem_cons_of_mem _ List.mem_cons_self)
  | literal c | number n => rfl

/-- A source has the same word when only registers change that it does not read. -/
theorem word_of_keeps {changed : List Register} {source : Source} (h : Processor.Keeps changed p q)
    (hbase : rbp ∉ changed) (hregister : ∀ r, source = .register r → r ∉ changed) :
  source.word m q = source.word m p
  := by
  apply word_congr (h.registers_eq rbp hbase)
  · exact fun r hr => h.registers_eq r (hregister r hr)
  · exact fun a _ => h.load_eq a

end Source

/-- The source of an operand; none for one that takes a helper to read. -/
def source? (f : IR.Function) (id : OperandId) : Option Source :=
  let o := f.operand id
  match o.kind, o.register with
  | .temp _, some register | .var _, some register => some (.register register)
  | .temp n, none => some (.slot (Frame.temp n))
  | .var n, none => some (.entry Frame.locals n)
  | .cell n, _ => some (.entry Frame.cells n)
  | .const c, _ => some (.literal c)
  | .retval, _ => some (.register rax)
  | .global _, _ | .contents _, _ | .function _, _ => none

/-- The word of an operand; none for one that takes a helper to read. -/
def operandWord? (m : Image) (f : IR.Function) (p : Processor) (id : OperandId) : Option Word :=
  (source? f id).map (·.word m p)

variable {m : Image} {f : IR.Function} {p q : Processor} {id : OperandId} {source : Source} {w : Word}

/-- The code that loads an operand is that of its source. -/
theorem loadOperand_of_source (h : source? f id = some source) (dst : Register) :
  loadOperand f dst id = .ok (source.code dst)
  := by
  unfold source? at h
  unfold loadOperand
  dsimp only at h ⊢
  generalize (f.operand id).kind = kind at h ⊢
  generalize (f.operand id).register = register at h ⊢
  cases kind <;> cases register <;> cases h <;> rfl

/-- An operand that is not in a register of allocation is in memory, in code or in `rax`. -/
theorem register_of_source {r : Register} (h : source? f id = some (.register r)) :
  (f.operand id).register = some r ∨ r = rax
  := by
  unfold source? at h
  dsimp only at h
  split at h <;> cases h
  · exact .inl ‹_›
  · exact .inl ‹_›
  · exact .inr rfl

/-! ### Writes -/

/-- A temp is written where it is read, and `rax` keeps the word. -/
theorem runCode_writeTemp (hid : f.isTemp id = true) (pos : Nat) :
  ∃ code q, writeOperand f pos id = .ok code ∧ p.runCode m code = some q ∧
    q.registers rax = p.registers rax ∧ operandWord? m f q id = some (p.registers rax)
  := by
  obtain ⟨n, hn⟩ := IR.Function.isTemp_iff.mp hid
  replace hn : (f.operand id).kind = .temp n := hn
  unfold writeOperand operandWord? source?
  dsimp only
  rw [hn]
  cases (f.operand id).register with
  | some r =>
    refine ⟨_, _, rfl, Processor.runCode_moveTo r rax, ?_, ?_⟩
    · simp
    · simp [Source.word]
  | none =>
    refine ⟨_, _, rfl, rfl, rfl, ?_⟩
    exact congrArg some (Processor.load_store_self _ _)

end StackCompiler.Machine
