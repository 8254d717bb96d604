import StackCompiler.Proofs.Machine.Balance
import StackCompiler.Proofs.Machine.Services

/-!
# Stack discipline

The code of a function enters it, carries out its instructions and leaves it.  Each piece leaves the
stack to the next one as that one needs it, whichever way jumps lead.  So calls find the stack aligned,
every instruction starts with nothing pushed, all slots are in the frame and apart from each other, and
the code ends in a return at which the caller's registers are back.  Compiled functions are among those
that this is true of, if their frames are of a size that code can carry.
-/

namespace StackCompiler.Machine

open IR (Inst OperandId)
open Register (rax rcx rdx rsp rbp rsi rdi)

namespace Invocation

variable {f : IR.Function} {v : Invocation (Frame.bytes f.tempCount)}

/-! ### Functions -/

/-- Entering a function makes its frame and saves registers. -/
theorem leads_entryCode :
  v.Leads (· = v.caller) (entryCode (Frame.size f.tempCount)) (v.Deep 0)
  := by
  have hparameters := v.parameters
  have hcarried := v.carried
  obtain ⟨hclosure, hlocals, hcells⟩ := within_parameters f.tempCount
  rw [entryCode_eq]
  have hframe : v.Leads (· = v.caller) (codes (frameInstructions (Frame.size f.tempCount)))
      (Framed (Frame.bytes f.tempCount) v.caller) := by
    refine .codes fun p hp => ?_
    obtain ⟨q, hq, hframed⟩ := run_frameInstructions (ofNat_carried hcarried) p
    rw [hp] at hframed
    exact .of_run (by simp [frameInstructions, Instruction.slot?]) hq hframed
  have hstores : v.Leads (Framed (Frame.bytes f.tempCount) v.caller) (codes parameterInstructions)
      (Kept (Frame.bytes f.tempCount) v.caller) := by
    refine .codes fun p hp => ?_
    obtain ⟨q, hq, hkept⟩ := hp.run_parameterInstructions
    refine Traverses.next rfl ?_ (Traverses.next rfl ?_ (Traverses.next rfl ?_ ?_))
    · rintro _ ⟨⟩
      exact ⟨hp.base, hclosure⟩
    · rintro _ ⟨⟩
      exact ⟨hp.base, hlocals⟩
    · rintro _ ⟨⟩
      exact ⟨hp.base, hcells⟩
    · cases hq
      exact hkept
  have hpushes : v.Leads (Kept (Frame.bytes f.tempCount) v.caller) (codes (Register.saved.map .push))
      (v.Deep 0) := by
    refine .codes fun p hp => ?_
    obtain ⟨q, hq, hdeep⟩ := hp.run_pushes (by omega) (by omega)
    exact .of_run (by decide) hq hdeep
  exact (hframe.append hstores).append hpushes

/-- The code that closes a function which does not end in a return leads nowhere: it returns. -/
theorem leads_closingCode (h : endsInReturn f = false) :
  v.Leads (v.Deep 0) (closingCode f) fun _ => False
  := by
  unfold closingCode
  rw [h]
  exact (leads_setTo (by decide) _).append leads_exitCode

/-- The code of a function whose last instruction returns ends with a return. -/
theorem exists_ret (h : endsInReturn f = true) :
  ∃ before pos value, f.live = before ++ [(pos, .ret value)]
  := by
  unfold endsInReturn at h
  split at h
  · rename_i pos value hlast
    obtain ⟨before, hbefore⟩ := List.getLast?_eq_some_iff.mp hlast
    exact ⟨before, pos, value, hbefore⟩
  · cases h

/-- The code of a function leads nowhere: it does not run past its end. -/
theorem Suits.leads_functionCode (hf : Suits f v)
    (hnamed : ∀ entry ∈ f.live, ∀ id ∈ entry.2.operands, id < f.operands.size)
    (hcalls : ∀ entry ∈ f.live, 8 * (entry.2.passed.length + 1) < 2 ^ 31) {fragments : List Fragment}
    (h : functionCode f = .ok fragments) :
  v.Leads (· = v.caller) fragments fun _ => False
  := by
  obtain ⟨hcode, rfl⟩ := functionCode_eq_ok h
  have hblock : ∀ entry ∈ f.live, v.Leads (v.Deep 0) (block f entry) (v.Deep 0) := fun entry hentry =>
    (Leads.comment _).append
      (hf.balanced_instCode (hnamed entry hentry) (hcalls entry hentry) _ (hcode entry hentry))
  rw [List.append_assoc]
  refine leads_entryCode.append ?_
  cases hends : endsInReturn f with
  | false => exact (Leads.flatMap hblock).append (leads_closingCode hends)
  | true =>
    obtain ⟨before, pos, value, hlive⟩ := exists_ret hends
    have hmem : (pos, .ret value) ∈ f.live := by simp [hlive]
    have hclosing : closingCode f = [] := if_pos hends
    have hlast : v.Leads (v.Deep 0) (block f (pos, .ret value)) fun _ => False :=
      (Leads.comment _).append
        (hf.leads_ret (hnamed _ hmem value List.mem_cons_self) (hcode _ hmem))
    have hbefore : v.Leads (v.Deep 0) (before.flatMap (block f)) (v.Deep 0) :=
      Leads.flatMap fun entry hentry => hblock entry (by simp [hlive, hentry])
    rw [hclosing, List.append_nil, hlive, List.flatMap_append, List.flatMap_singleton]
    exact hbefore.append hlast

end Invocation

/-! ### Slots -/

/-- A word that a function keeps in its frame or below it. -/
inductive Slot where
  | closure
  | locals
  | cells
  /-- The slot of a temp. -/
  | temp (id : OperandId)
  /-- A register that is saved on entry. -/
  | saved (r : Register)

/-- Where a slot is, relative to the base of a frame of a given size. -/
inductive Slot.At (f : IR.Function) (frameSize : Int32) : Slot → Int → Prop where
  | closure : At f frameSize .closure Frame.closure.toInt
  | locals : At f frameSize .locals Frame.locals.toInt
  | cells : At f frameSize .cells Frame.cells.toInt
  | temp {id : OperandId} {k : Nat} (hid : id < f.operands.size) (hkind : f.kind id = .temp k) :
    At f frameSize (.temp id) (Frame.temp k).toInt
  | saved {i : Nat} {r : Register} (hr : Register.saved[i]? = some r) :
    At f frameSize (.saved r) (-frameSize.toInt - (8 * (i + 1) : Nat))

/-- The size of a frame that fits 32 bits is carried as it is. -/
theorem toInt_size {temps : Nat} (h : Frame.bytes temps < 2 ^ 31) :
  (Frame.size temps).toInt = Frame.bytes temps
  := by
  unfold Frame.size
  rw [← Int32.ofInt_eq_ofNat, Int32.toInt_ofInt_of_le (by omega) (by omega)]

/-- How far below the base slots are, by their kinds. -/
theorem Slot.At.cases {f : IR.Function} {slot : Slot} {a : Int} (hf : f.Numbered)
    (hcarried : Frame.bytes f.tempCount < 2 ^ 31) (h : slot.At f (Frame.size f.tempCount) a) :
  (slot = .closure ∧ a = -8) ∨ (slot = .locals ∧ a = -16) ∨ (slot = .cells ∧ a = -24) ∨
    (∃ id k, slot = .temp id ∧ id < f.operands.size ∧ f.kind id = .temp k ∧ k < f.tempCount ∧
      a = -(8 * (4 + k) : Nat)) ∨
    ∃ i r, slot = .saved r ∧ Register.saved[i]? = some r ∧ a = -(Frame.bytes f.tempCount + 8 * (i + 1) : Nat)
  := by
  cases h with
  | closure => exact .inl ⟨rfl, by decide⟩
  | locals => exact .inr (.inl ⟨rfl, by decide⟩)
  | cells => exact .inr (.inr (.inl ⟨rfl, by decide⟩))
  | temp hid hkind =>
    have hlt := hf.temp_lt _ _ hid hkind
    exact .inr (.inr (.inr (.inl ⟨_, _, rfl, hid, hkind, hlt, toInt_temp hlt hcarried⟩)))
  | saved hr =>
    refine .inr (.inr (.inr (.inr ⟨_, _, rfl, hr, ?_⟩)))
    rw [toInt_size hcarried]
    omega

/-- Two different slots of a frame of less than `2 ^ 31` bytes do not overlap: one ends before the
other starts. -/
theorem Slot.At.apart {f : IR.Function} {slot slot' : Slot} {a b : Int} (hf : f.Numbered)
    (hcarried : Frame.bytes f.tempCount < 2 ^ 31) (h : slot.At f (Frame.size f.tempCount) a)
    (h' : slot'.At f (Frame.size f.tempCount) b) (hne : slot ≠ slot') :
  a + 8 ≤ b ∨ b + 8 ≤ a
  := by
  have hbytes := le_bytes f.tempCount
  have hcases := h.cases hf hcarried
  have hcases' := h'.cases hf hcarried
  rcases hcases with ⟨rfl, rfl⟩ | ⟨rfl, rfl⟩ | ⟨rfl, rfl⟩ | ⟨id, k, rfl, hid, hkind, hk, rfl⟩ | ⟨i, r, rfl, hr, rfl⟩
  all_goals
    rcases hcases' with ⟨rfl, rfl⟩ | ⟨rfl, rfl⟩ | ⟨rfl, rfl⟩ | ⟨id', k', rfl, hid', hkind', hk', rfl⟩ |
      ⟨i', r', rfl, hr', rfl⟩
  -- Slots of different kinds have different numbers of words above them.
  all_goals try omega
  · exact absurd rfl hne
  · exact absurd rfl hne
  · exact absurd rfl hne
  · have hnumber : k ≠ k' := by
      rintro rfl
      exact hne (congrArg Slot.temp (hf.temp_inj id id' k hid hid' hkind hkind'))
    omega
  · have hindex : i ≠ i' := by
      rintro rfl
      rw [hr] at hr'
      cases hr'
      exact hne rfl
    omega

/-! ### The discipline -/

/-- The frame of a function, and what its instructions pass on the stack, take fewer bytes than
instructions can carry.  A call that passes more leaves the stack pointer elsewhere
(`restores_stack_iff`). -/
structure Carried (f : IR.Function) : Prop where
  frame : Frame.bytes f.tempCount < 2 ^ 31
  calls : ∀ entry ∈ f.live, 8 * (entry.2.passed.length + 1) < 2 ^ 31

/-- What is true of a state that the code of a function reaches after a call in a given state. -/
structure Disciplined (f : IR.Function) (frameSize : Int32) (code : List UInt8) (p : Processor) (s : State) :
    Prop where
  /-- A call finds the stack aligned. -/
  aligned : ∀ target, Fetches code s.offset (.call target) → (s.processor.registers rsp).toNat % 16 = 0
  /-- At the start of an instruction the stack pointer is just below the frame and the saved
  registers, and these are what the caller had. -/
  level : ∀ before entry after, f.live = before ++ entry :: after →
    s.offset = codeSize (entryCode frameSize ++ before.flatMap (block f)) →
    s.processor.registers rsp = s.processor.registers rbp - frameSize.toInt64.toUInt64 - 40 ∧
      ∀ i r, Register.saved[i]? = some r →
        s.processor.load (s.processor.registers rbp - frameSize.toInt64.toUInt64 - .ofNat (8 * (i + 1)))
          = p.registers r
  /-- The code does not run past its end.  It goes on, or returns with the registers of the caller,
  or divides without a quotient. -/
  proceeds : ∃ inst, Fetches code s.offset inst ∧ s.offset + inst.size ≤ code.length ∧
    ((∃ s', Step code s s') ∨ inst = .ret ∧ Left p s.processor ∨
      ∃ divisor, inst = .idiv divisor ∧ s.processor.execute inst = none)
  /-- What is accessed relative to the base is in the frame. -/
  access : ∀ inst disp, Fetches code s.offset inst → inst.slot? = some disp →
    s.processor.registers rbp = p.registers rsp - 8 ∧ -frameSize.toInt ≤ disp.toInt ∧ disp.toInt ≤ -8

/-- A frame and the saved registers together keep the stack aligned. -/
theorem bytes_mod (temps : Nat) :
  (Frame.bytes temps + Frame.savedBytes) % 16 = 0
  := by
  unfold Frame.bytes Frame.savedBytes
  dsimp only
  split <;> omega

/-- Where the code of an instruction starts. -/
theorem functionCode_split {f : IR.Function} {fragments : List Fragment} (h : functionCode f = .ok fragments)
    {before after : List (Nat × Inst)} {entry : Nat × Inst} (hlive : f.live = before ++ entry :: after) :
  fragments = entryCode (Frame.size f.tempCount) ++ before.flatMap (block f)
    ++ .item (.comment (f.instText entry.2)) :: (codeOf f entry ++ after.flatMap (block f) ++ closingCode f)
  := by
  obtain ⟨-, hsplit⟩ := functionCode_eq_ok h
  rw [hsplit, hlive]
  simp [block]

/-- When nothing is pushed, the stack pointer is below the saved registers, which are below the frame. -/
theorem InBody.level {frame : Nat} {p q : Processor} (h : InBody frame p 0 q) :
  q.registers rsp = q.registers rbp - .ofNat frame - 40 ∧
    ∀ i r, Register.saved[i]? = some r →
      q.load (q.registers rbp - .ofNat frame - .ofNat (8 * (i + 1))) = p.registers r
  := by
  rw [h.base, h.stack]
  refine ⟨below_add _ frame 40, fun i r hr => ?_⟩
  have hword := h.words _ (kept_saved p hr)
  dsimp only at hword
  rwa [below_add (p.registers rsp - 8) frame (8 * (i + 1))] at hword

/-- Code of a function whose operands suit an invocation is disciplined. -/
theorem Invocation.Suits.disciplined {f : IR.Function} {v : Invocation (Frame.bytes f.tempCount)}
    (hsuits : Suits f v) (hf : f.Built) (hcarried : Carried f) {helpers : HelperTable} {n : NativeFunction}
    (hgenerate : generate f helpers = .ok n) {s : State} (hs : Reaches (n.loaded v.image) ⟨0, v.caller⟩ s) :
  Disciplined f n.frameSize (n.loaded v.image) v.caller s
  := by
  obtain ⟨fragments, labels, hfragments, hlabels, hframe, hencoded⟩ := encodeAll_loaded v.image hgenerate
  have hleads := hsuits.leads_functionCode hf.named hcarried.calls hfragments
  have hloaded : v.Loaded helpers labels fragments (n.loaded v.image) := ⟨hlabels, hencoded, hleads⟩
  have hunderway := hloaded.underway_of_reaches hs
  rw [hframe]
  refine ⟨fun target => hunderway.aligned hloaded, fun before entry after hlive hoffset => ?_,
    hunderway.goes_on hloaded, fun inst disp hfetch hslot => ?_⟩
  · have hsize : (Frame.size f.tempCount).toInt64.toUInt64 = .ofNat (Frame.bytes f.tempCount) :=
      ofNat_carried hcarried.frame
    rw [hsize]
    exact (hunderway.level (functionCode_split hfragments hlive) hoffset).level
  · rw [toInt_size hcarried.frame]
    exact hunderway.access hloaded hfetch hslot

/-- An invocation in a given state. -/
theorem exists_invocation {temps : Nat} (hcarried : Frame.bytes temps < 2 ^ 31) (m : Image) {p : Processor}
    (haligned : (p.registers rsp).toNat % 16 = 8) :
  ∃ v : Invocation (Frame.bytes temps), v.image = m ∧ v.caller = p
  := by
  have hbytes := le_bytes temps
  exact ⟨⟨m, p, by omega, hcarried, bytes_mod temps, haligned⟩, rfl, rfl⟩

/-- The frame of machine code is made for the temps of its function. -/
theorem frameSize_of_generate {f : IR.Function} {helpers : HelperTable} {n : NativeFunction}
    (h : generate f helpers = .ok n) :
  n.frameSize = Frame.size f.tempCount
  := by
  obtain ⟨fragments, -, -, -, hframe, -⟩ := generate_eq_ok h
  exact hframe

/-- An operand is one of the table, or one that stands for none of them. -/
theorem operand_cases (f : IR.Function) (id : OperandId) :
  f.operand id ∈ f.operands ∨ f.operand id = default
  := by
  unfold IR.Function.operand
  rw [Array.getD_eq_getD_getElem?]
  cases h : f.operands[id]? with
  | none => exact .inr rfl
  | some o => exact .inl (Array.mem_of_getElem? h)

/-- The code of a function keeps to the discipline of the stack on every path.  Its operands have
registers of the pool, if any, its frame is of a size that code can carry, and it is called with the
stack aligned as calls leave it and with variables outside the frame. -/
theorem generate_disciplined {f : IR.Function} {helpers : HelperTable} {n : NativeFunction} (hf : f.Built)
    (hpool : ∀ o ∈ f.operands, ∀ r, o.register = some r → r ∈ Register.pool)
    (hgenerate : generate f helpers = .ok n) (hcarried : Carried f) (m : Image) {p : Processor}
    (haligned : (p.registers rsp).toNat % 16 = 8)
    (hlocals : ∀ o ∈ f.operands, ∀ x, o.kind = .var x → OutsideWord (p.registers rsp)
      (Frame.bytes f.tempCount + Frame.savedBytes + 8) (p.registers rsi + (entryOffset x).toInt64.toUInt64)) :
  (∀ s, Reaches (n.loaded m) ⟨0, p⟩ s → Disciplined f n.frameSize (n.loaded m) p s) ∧
    ∀ slot slot' a b, Slot.At f n.frameSize slot a → Slot.At f n.frameSize slot' b → slot ≠ slot' →
      a + 8 ≤ b ∨ b + 8 ≤ a
  := by
  refine ⟨fun s hs => ?_, fun slot slot' a b h h' hne => ?_⟩
  · obtain ⟨v, rfl, rfl⟩ := exists_invocation hcarried.frame m haligned
    refine Invocation.Suits.disciplined ⟨hf.numbered.temp_lt, fun id r _ hr => ?_, fun id x hx => ?_⟩ hf
      hcarried hgenerate hs
    · rcases operand_cases f id with hmem | hdefault
      · exact hpool _ hmem r hr
      · rw [hdefault] at hr
        cases hr
    · rcases operand_cases f id with hmem | hdefault
      · exact hlocals _ hmem x hx
      · unfold IR.Function.kind at hx
        rw [hdefault] at hx
        cases hx
  · rw [frameSize_of_generate hgenerate] at h h'
    exact h.apart hf.numbered hcarried.frame h' hne

/-- A loop around a call with two values on the stack, with a register to save around it and a variable
in the array of locals.  Its last instruction is a jump. -/
def patrol : IR.Function where
  name := "patrol"
  operands := #[.ofKind (.var 0),
    { IR.Operand.ofKind (.temp 0) with register := some .r8, liveStart := some 1, liveEnd := some 5 },
    .ofKind (.temp 1), .ofKind (.temp 2)]
  code := #[.label 0, .assign 1 0, .fork 1 2 3, .call 2 [3, 1], .store 0 1, .condJump 1 0, .jump 0]

/-- A state in which a function is called, with the array of locals above the stack. -/
def patrolCaller : Processor where
  registers r := if r = rsp then 0x10008 else if r = rsi then 0x20000 else 0
  flags := none
  memory _ := 0

/-- A loop around a call, with a register that is saved across it, is disciplined in every state that
is reached, and its slots are apart. -/
theorem generate_disciplined_patrol :
  ∃ n, generate patrol [(.callFunction, 0x7F0012345678)] = .ok n ∧ n.frameSize = 56 ∧
    savedAcross patrol 3 = [.r8] ∧ (patrolCaller.registers rsp).toNat % 16 = 8 ∧
    (∀ m s, Reaches (n.loaded m) ⟨0, patrolCaller⟩ s →
      Disciplined patrol n.frameSize (n.loaded m) patrolCaller s) ∧
    ∀ slot slot' a b, Slot.At patrol n.frameSize slot a → Slot.At patrol n.frameSize slot' b → slot ≠ slot' →
      a + 8 ≤ b ∨ b + 8 ≤ a
  := by
  have hcheck : (generate patrol [(.callFunction, 0x7F0012345678)]).toOption.any (fun n =>
      n.frameSize == 56) = true := by
    decide +kernel
  obtain ⟨n, hn, hsize⟩ := (Option.any_eq_true _ _).mp hcheck
  have hgenerate := eq_ok_of_toOption hn
  have hkinds : ∀ id kind, id < patrol.operands.size → patrol.kind id = kind →
      id = 0 ∧ kind = .var 0 ∨ ∃ k < 3, id = k + 1 ∧ kind = .temp k := by
    rintro id _ hid rfl
    change id < 4 at hid
    rcases id with - | - | - | - | id
    · exact .inl ⟨rfl, rfl⟩
    · exact .inr ⟨0, by decide, rfl, rfl⟩
    · exact .inr ⟨1, by decide, rfl, rfl⟩
    · exact .inr ⟨2, by decide, rfl, rfl⟩
    · omega
  have hbuilt : patrol.Built := by
    refine ⟨⟨?_, ?_, ?_⟩, by decide⟩
    · intro id k hid hkind
      obtain ⟨-, ⟨⟩⟩ | ⟨k', hk', -, ⟨⟩⟩ := hkinds id _ hid hkind
      exact hk'
    · intro i j k hi hj hkind hkind'
      obtain ⟨-, ⟨⟩⟩ | ⟨_, -, rfl, ⟨⟩⟩ := hkinds i _ hi hkind
      obtain ⟨-, ⟨⟩⟩ | ⟨_, -, rfl, ⟨⟩⟩ := hkinds j _ hj hkind'
      rfl
    · intro i j k hi hj hkind hkind'
      obtain ⟨rfl, -⟩ | ⟨_, -, -, ⟨⟩⟩ := hkinds i _ hi hkind
      obtain ⟨rfl, -⟩ | ⟨_, -, -, ⟨⟩⟩ := hkinds j _ hj hkind'
      rfl
  have hpool : ∀ o ∈ patrol.operands, ∀ r, o.register = some r → r ∈ Register.pool := by
    simp [patrol, IR.Operand.ofKind, Register.pool]
  have hlocals : ∀ o ∈ patrol.operands, ∀ x, o.kind = .var x → OutsideWord (patrolCaller.registers rsp)
      (Frame.bytes patrol.tempCount + Frame.savedBytes + 8)
      (patrolCaller.registers rsi + (entryOffset x).toInt64.toUInt64) := by
    have hzero : OutsideWord (patrolCaller.registers rsp)
        (Frame.bytes patrol.tempCount + Frame.savedBytes + 8)
        (patrolCaller.registers rsi + (entryOffset 0).toInt64.toUInt64) := by
      unfold OutsideWord Outside
      decide +kernel
    intro o ho x hx
    have hx0 : x = 0 := by
      simp only [patrol, List.mem_toArray, List.mem_cons, List.not_mem_nil, or_false] at ho
      rcases ho with rfl | rfl | rfl | rfl <;> cases hx
      rfl
    rw [hx0]
    exact hzero
  have hcarried : Carried patrol := ⟨by decide, by decide⟩
  have haligned : (patrolCaller.registers rsp).toNat % 16 = 8 := by decide
  have hall := fun m => generate_disciplined hbuilt hpool hgenerate hcarried m haligned hlocals
  exact ⟨n, hgenerate, beq_iff_eq.mp hsize, by decide, haligned, fun m => (hall m).1, (hall blankImage).2⟩

/-! ### Compiled functions -/

section Compiled

variable {g : IR.Function} (hg : g.Prepared)
include hg

/-- What is true of every compiled function is what its machine code needs. -/
theorem built_of_prepared :
  g.Built
  := by
  refine ⟨hg.wellFormed.numbered, ?_⟩
  rintro ⟨pos, inst⟩ hlive id hid
  have hfits := hg.wellFormed.fits pos inst (IR.Function.mem_live.mp hlive)
  have hrest : id ∈ inst.defs ++ inst.uses → id < g.operands.size := fun h =>
    (List.mem_append.mp h).elim (fun hdef => (hfits.def_temp id hdef).1) (hfits.use_lt id)
  cases inst with
  | store dest src =>
    rcases List.mem_cons.mp hid with rfl | hsrc
    · exact (hfits.store_place _ _ rfl).1
    · exact hfits.use_lt id hsrc
  | forceLoad x =>
    rw [List.mem_singleton.mp hid]
    exact (hfits.load_var x rfl).1
  | _ => exact hrest hid

/-- What an instruction passes are temps, each of them once, and the frame has a slot for each. -/
theorem carried_of_prepared (hframe : Frame.bytes g.tempCount < 2 ^ 31) :
  Carried g
  := by
  refine ⟨hframe, ?_⟩
  rintro ⟨pos, inst⟩ hlive
  have hfetch := IR.Function.mem_live.mp hlive
  have honce := hg.once pos inst hfetch
  have hbytes := le_bytes g.tempCount
  have hlength : inst.passed.length ≤ g.tempCount := by
    cases inst with
    | call callee ids | allocClosure callee ids =>
      apply hg.wellFormed.length_le_tempCount (List.nodup_cons.mp honce).2
      intro id hid
      have huse : id ∈ callee :: ids := List.mem_cons_of_mem callee hid
      exact ⟨(hg.wellFormed.fits pos _ hfetch).use_lt id huse,
        hg.wellFormed.isTemp_of_uses hfetch huse (by rintro _ ⟨⟩)⟩
    | _ => exact Nat.zero_le _
  dsimp only
  omega

end Compiled

/-- The code of a compiled function keeps to the discipline of the stack on every path. -/
theorem compileIR_disciplined {f : Bytecode.Function} {o : Options} {g : IR.Function} {helpers : HelperTable}
    {n : NativeFunction} (hcompile : compileIR f o = .ok g) (hgenerate : generate g helpers = .ok n)
    (hframe : Frame.bytes g.tempCount < 2 ^ 31) (m : Image) {p : Processor}
    (haligned : (p.registers rsp).toNat % 16 = 8)
    (hlocals : ∀ id x, g.kind id = .var x → OutsideWord (p.registers rsp)
      (Frame.bytes g.tempCount + Frame.savedBytes + 8) (p.registers rsi + (entryOffset x).toInt64.toUInt64))
    {s : State} (hs : Reaches (n.loaded m) ⟨0, p⟩ s) :
  Disciplined g n.frameSize (n.loaded m) p s
  := by
  have hg := IR.prepared_of_compileIR hcompile
  obtain ⟨v, rfl, rfl⟩ := exists_invocation hframe m haligned
  refine Invocation.Suits.disciplined ⟨hg.wellFormed.numbered.temp_lt, fun id r hvalue hr => ?_, hlocals⟩
    (built_of_prepared hg) (carried_of_prepared hg hframe) hgenerate hs
  rcases hvalue with hvalue | hlive
  · exact hg.pool id r hvalue hr
  · obtain ⟨start, hstart⟩ := Option.isSome_iff_exists.mp hlive
    exact hg.pool id r (hg.value id start hstart) hr

end StackCompiler.Machine
