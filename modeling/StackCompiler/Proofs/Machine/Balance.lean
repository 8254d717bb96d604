import StackCompiler.Proofs.Machine.Arithmetic
import StackCompiler.Proofs.Machine.Traversal

/-!
# Balance of code

The code of every instruction leaves the stack as it found it.  Most of it works in registers; what a
call pushes is taken back after the call; and what is written to memory goes to the slots of temps or
to the array of locals, which is outside the frame.  A return gives back what was saved on entry.
-/

namespace StackCompiler

namespace IR

/-- The operands that an instruction names. -/
def Inst.operands : Inst → List OperandId
  | .store dest src => [dest, src]
  | .forceLoad x => [x]
  | inst => inst.defs ++ inst.uses

/-- The operands that an instruction passes on the stack. -/
def Inst.passed : Inst → List OperandId
  | .call _ args => args
  | .allocClosure _ refs => refs
  | _ => []

/-- What every function has that is built from new operands: they are numbered, and instructions name
operands that are there. -/
structure Function.Built (f : Function) : Prop where
  numbered : f.Numbered
  named : ∀ entry ∈ f.live, ∀ id ∈ entry.2.operands, id < f.operands.size

end IR

namespace Machine

open IR (Inst OperandId BinOp Label)
open Register (rax rcx rdx rsp rbp rsi rdi)

/-! ### Places in the frame -/

/-- The slot of the temp with the number `n` is `8 * (4 + n)` bytes below the base, if the frame
is small enough to be addressed. -/
theorem toInt_temp {n temps : Nat} (hn : n < temps) (hcarried : Frame.bytes temps < 2 ^ 31) :
  (Frame.temp n).toInt = -(8 * (4 + n) : Nat)
  := by
  have hbytes := le_bytes temps
  unfold Frame.temp
  rw [Int32.toInt_ofInt_of_le (by omega) (by omega)]
  omega

/-- The slot of a temp is in the frame. -/
theorem within_temp {n temps : Nat} (hn : n < temps) (hcarried : Frame.bytes temps < 2 ^ 31) :
  Within (Frame.bytes temps) (Frame.temp n)
  := by
  have hbytes := le_bytes temps
  unfold Within
  rw [toInt_temp hn hcarried]
  omega

/-- The parameters of a function are in every frame. -/
theorem within_parameters (temps : Nat) :
  Within (Frame.bytes temps) Frame.closure ∧ Within (Frame.bytes temps) Frame.locals ∧
    Within (Frame.bytes temps) Frame.cells
  := by
  have hbytes := le_bytes temps
  have hclosure : Frame.closure.toInt = -8 := by decide
  have hlocals : Frame.locals.toInt = -16 := by decide
  have hcells : Frame.cells.toInt = -24 := by decide
  unfold Within
  rw [hclosure, hlocals, hcells]
  omega

/-- A source that is in the frame, if it is in memory. -/
def Source.Within (frame : Nat) : Source → Prop
  | .slot disp | .entry disp _ => Machine.Within frame disp
  | _ => True

namespace Invocation

variable {f : IR.Function} {v : Invocation (Frame.bytes f.tempCount)} {d pos : Nat}

/-! ### Instructions that leave the stack alone -/

/-- An instruction that works in registers leaves the stack alone. -/
theorem leads_of_changesOnly {x : Fragment} {inst : Instruction} (hinst : x.instruction? v.image = some inst)
    (hchanges : inst.changesOnly general = true)
    (hexecute : ∀ p : Processor, (∃ q, p.execute inst = some q) ∨ ∃ divisor, inst = .idiv divisor)
    (hslot : ∀ disp, inst.slot? = some disp → Within (Frame.bytes f.tempCount) disp) :
  v.Leads (v.Deep d) [x] (v.Deep d)
  := by
  have hcode : x.isCode = true := by
    cases x with
    | item i =>
      cases i with
      | code _ _ => rfl
      | _ => cases hinst
    | _ => rfl
  apply Leads.of_forall
  · simpa using hcode
  · intro p hp
    refine .instruction hinst ?_
    have hnext : ∀ q, p.execute inst = some q → v.Proceeds (v.Deep d) p inst := fun q hq =>
      .next (fun disp hdisp => ⟨hp.base, hslot disp hdisp⟩) hq (hp.keeps (Processor.keeps_execute hchanges hq))
    rcases hexecute p with ⟨q, hq⟩ | ⟨divisor, rfl⟩
    · exact hnext q hq
    · cases hq : p.execute (.idiv divisor) with
      | none => exact .fault hq
      | some q => exact hnext q hq

/-- So does one that accesses nothing relative to the base. -/
theorem leads_plain {x : Fragment} {inst : Instruction} (hinst : x.instruction? v.image = some inst)
    (hchanges : inst.changesOnly general = true) (hslot : inst.slot? = none)
    (hexecute : ∀ p : Processor, (∃ q, p.execute inst = some q) ∨ ∃ divisor, inst = .idiv divisor) :
  v.Leads (v.Deep d) [x] (v.Deep d)
  := by
  refine leads_of_changesOnly hinst hchanges hexecute fun disp hdisp => ?_
  rw [hslot] at hdisp
  cases hdisp

/-- Moving into a general register leaves the stack as it is. -/
theorem leads_mov {dst : Register} (hdst : dst ∈ general) (src : Register) :
  v.Leads (v.Deep d) (moveTo dst src) (v.Deep d)
  := by
  unfold moveTo
  split
  · exact .nil fun _ hp => hp
  · exact leads_plain rfl (List.contains_iff_mem.mpr hdst) rfl fun _ => .inl ⟨_, rfl⟩

/-- Loading into a general register leaves the stack as it is.  What is loaded relative to the
base has to be in the frame. -/
theorem leads_load {dst : Register} (hdst : dst ∈ general) (base : Register) {disp : Int32}
    (hdisp : base = rbp → Within (Frame.bytes f.tempCount) disp) :
  v.Leads (v.Deep d) [.code (.load dst base disp)] (v.Deep d)
  := by
  apply leads_of_changesOnly rfl
  · exact List.contains_iff_mem.mpr hdst
  · exact fun _ => .inl ⟨_, rfl⟩
  · intro disp' hslot
    unfold Instruction.slot? at hslot
    dsimp only at hslot
    split at hslot
    · rename_i hbase
      cases hslot
      exact hdisp hbase
    · cases hslot

/-- Setting a general register to a number leaves the stack as it is. -/
theorem leads_setTo {dst : Register} (hdst : dst ∈ general) (n : UInt64) :
  v.Leads (v.Deep d) (codes [.setTo dst n]) (v.Deep d)
  := by
  have hmem := List.contains_iff_mem.mpr hdst
  unfold Instruction.setTo
  dsimp only
  split
  · exact leads_plain rfl hmem rfl fun _ => .inl ⟨_, rfl⟩
  · exact leads_plain rfl hmem rfl fun _ => .inl ⟨_, rfl⟩

theorem ne_rbp_of_general {r : Register} (h : r ∈ general) :
  r ≠ rbp
  := by
  rintro rfl
  exact absurd h (by decide)

/-- Reading a source leaves the stack alone. -/
theorem leads_source {dst : Register} (hdst : dst ∈ general) {source : Source}
    (hsource : source.Within (Frame.bytes f.tempCount)) :
  v.Leads (v.Deep d) (source.code dst) (v.Deep d)
  := by
  cases source with
  | register r => exact leads_mov hdst r
  | slot disp => exact leads_load hdst rbp fun _ => hsource
  | entry base n =>
    exact (leads_load hdst rbp fun _ => hsource).append
      (leads_load hdst dst fun h => absurd h (ne_rbp_of_general hdst))
  | literal c =>
    cases c with
    | string s => exact leads_plain rfl (List.contains_iff_mem.mpr hdst) rfl fun _ => .inl ⟨_, rfl⟩
    | none | boolean b | integer n => exact leads_setTo hdst _
  | number n => exact leads_setTo hdst n

/-! ### Pushing and popping -/

/-- Pushing a register takes the stack from `d` words to one word more, if there is room. -/
theorem leads_push (hroom : Frame.bytes f.tempCount + Frame.savedBytes + 8 * (d + 1) < 2 ^ 33) (r : Register) :
  v.Leads (v.Deep d) [.code (.push r)] (v.Deep (d + 1))
  := by
  have hframe := v.parameters
  exact .instruction fun p hp => .next (by rintro _ ⟨⟩) rfl (hp.push (by omega) hroom _)

/-- Pushing registers takes the stack one word further for each of them, if there is room. -/
theorem leads_pushes (registers : List Register)
    (hroom : Frame.bytes f.tempCount + Frame.savedBytes + 8 * (d + registers.length) < 2 ^ 33) :
  v.Leads (v.Deep d) (codes (registers.map .push)) (v.Deep (d + registers.length))
  := by
  induction registers generalizing d with
  | nil => exact .nil fun _ hp => hp
  | cons first rest ih =>
    rw [List.length_cons] at hroom ⊢
    have hrest := ih (d := d + 1) (by omega)
    rw [Nat.add_assoc, Nat.add_comm 1] at hrest
    exact (leads_push (by omega) first).append hrest

/-- Popping general registers takes as many words off the stack. -/
theorem leads_pops (registers : List Register) (hregisters : ∀ r ∈ registers, r ∈ general) :
  v.Leads (v.Deep (d + registers.length)) (codes (registers.map .pop)) (v.Deep d)
  := by
  induction registers with
  | nil => exact .nil fun _ hp => hp
  | cons first rest ih =>
    have hfirst : v.Leads (v.Deep (d + (rest.length + 1))) [.code (.pop first)] (v.Deep (d + rest.length)) :=
      .instruction fun p hp => .next (by rintro _ ⟨⟩) rfl (hp.pop rfl (hregisters first List.mem_cons_self))
    exact hfirst.append (ih fun r hr => hregisters r (List.mem_cons_of_mem _ hr))

/-- A word is left out. -/
theorem leads_lower :
  v.Leads (v.Deep d) [.code (.binaryImm .sub rsp 8)] (v.Deep (d + 1))
  := by
  refine .instruction fun p hp => .next (by rintro _ ⟨⟩) rfl ?_
  exact hp.move (Processor.keeps_combine List.mem_cons_self _ _) hp.lower

/-- Words are taken from the stack. -/
theorem leads_raise {n : Nat} (hn : 8 * n < 2 ^ 31) :
  v.Leads (v.Deep (d + n)) (if 0 < 8 * n then codes [.binaryImm .add rsp (Int32.ofNat (8 * n))] else [])
    (v.Deep d)
  := by
  by_cases hpos : 0 < 8 * n
  · rw [if_pos hpos]
    refine .instruction fun p hp => .next (by rintro _ ⟨⟩) rfl ?_
    refine hp.move (Processor.keeps_combine List.mem_cons_self _ _) ?_
    rw [← hp.raise rfl, ← ofNat_carried hn]
    rfl
  · obtain rfl : n = 0 := by omega
    exact .nil fun _ hp => hp

/-- The stack is aligned when an even number of words have been pushed. -/
theorem aligned_of_deep {p : Processor} (hp : v.Deep d p) (heven : d % 2 = 0) :
  (p.registers rsp).toNat % 16 = 0
  := by
  have haligned := v.aligned
  have hbytes := v.even
  have hlt := (v.caller.registers rsp).toNat_lt
  have h8 : (8 : UInt64).toNat = 8 := rfl
  rw [hp.stack]
  simp only [UInt64.toNat_sub, UInt64.toNat_ofNat', h8]
  omega

/-- A call leaves the stack as it is, if an even number of words has been pushed: then the stack
is aligned. -/
theorem leads_call (hroom : Frame.bytes f.tempCount + Frame.savedBytes + 8 * d < 2 ^ 33) (heven : d % 2 = 0)
    (target : Register) :
  v.Leads (v.Deep d) [.code (.call target)] (v.Deep d)
  := by
  have hframe := v.parameters
  exact .instruction fun p hp => .call (aligned_of_deep hp heven) fun q hq => hp.resume (by omega) hroom hq

/-- With its padding a call pushes an even number of words. -/
theorem callWords_mod (pos : Nat) (stack : List OperandId) :
  callWords f pos stack % 2 = 0
  := by
  unfold callWords paddingWords
  omega

/-! ### Operands -/

variable (f v) in
/-- The operands of a function suit an invocation: temps are counted, the registers of values and of
what is live are of the pool, and variables are outside the frame. -/
structure Suits : Prop where
  temp : ∀ id n, id < f.operands.size → f.kind id = .temp n → n < f.tempCount
  pool : ∀ id r, f.IsValue id ∨ (f.operand id).liveStart.isSome = true →
    (f.operand id).register = some r → r ∈ Register.pool
  var : ∀ id n, f.kind id = .var n → OutsideWord (v.caller.registers rsp)
    (Frame.bytes f.tempCount + Frame.savedBytes + 8)
    (v.caller.registers rsi + (entryOffset n).toInt64.toUInt64)

theorem mem_general_of_pool {r : Register} (h : r ∈ Register.pool) :
  r ∈ general
  := by
  revert r
  decide

theorem mem_general_of_arguments {r : Register} (h : r ∈ Register.arguments) :
  r ∈ general
  := by
  revert r
  decide

namespace Suits

variable (hf : Suits f v) {id : OperandId}
include hf

/-- The source of an operand is in the frame, if it is in memory. -/
theorem source_within (hid : id < f.operands.size) {source : Source} (h : source? f id = some source) :
  source.Within (Frame.bytes f.tempCount)
  := by
  obtain ⟨-, hlocals, hcells⟩ := within_parameters f.tempCount
  have htemp := hf.temp id
  unfold IR.Function.kind at htemp
  unfold source? at h
  dsimp only at h
  generalize (f.operand id).kind = kind at h htemp
  generalize (f.operand id).register = register at h
  cases kind with
  | temp n =>
    cases register with
    | none =>
      cases h
      exact within_temp (htemp n hid rfl) v.carried
    | some r =>
      cases h
      trivial
  | var n =>
    cases register with
    | none =>
      cases h
      exact hlocals
    | some r =>
      cases h
      trivial
  | cell n =>
    cases h
    exact hcells
  | const c =>
    cases h
    trivial
  | retval =>
    cases h
    trivial
  | _ => cases h

/-- The source of an argument is in the frame, if it is in memory. -/
theorem argumentSource_within {arg : Argument} (harg : ∀ id, arg = .value id → id < f.operands.size)
    {source : Source} (h : argumentSource? f arg = some source) :
  source.Within (Frame.bytes f.tempCount)
  := by
  obtain ⟨hclosure, -, hcells⟩ := within_parameters f.tempCount
  cases arg with
  | value id => exact hf.source_within (harg id rfl) h
  | closure =>
    cases h
    exact hclosure
  | cell n =>
    cases h
    exact hcells
  | _ =>
    cases h
    trivial

/-- The code that loads an operand into a general register leaves the stack as it is. -/
theorem leads_loadOperand {dst : Register} (hdst : dst ∈ general) (hid : id < f.operands.size)
    {code : List Fragment} (h : loadOperand f dst id = .ok code) :
  v.Leads (v.Deep d) code (v.Deep d)
  := by
  obtain ⟨source, hsource, rfl⟩ := loadOperand_eq_ok h
  exact leads_source hdst (hf.source_within hid hsource)

/-- The values of operands are pushed one after the other. -/
theorem leads_pushOperands (ids : List OperandId) (hids : ∀ id ∈ ids, id < f.operands.size)
    (hsources : ∀ id ∈ ids, ∃ source, source? f id = some source)
    (hroom : Frame.bytes f.tempCount + Frame.savedBytes + 8 * (d + ids.length) < 2 ^ 33) :
  v.Leads (v.Deep d) (ids.flatMap (pushCode f)) (v.Deep (d + ids.length))
  := by
  induction ids generalizing d with
  | nil => exact .nil fun _ hp => hp
  | cons first rest ih =>
    rw [List.length_cons] at hroom ⊢
    obtain ⟨source, hsource⟩ := hsources first List.mem_cons_self
    have hwithin := hf.source_within (hids first List.mem_cons_self) hsource
    have hrest := ih (d := d + 1) (fun id hid => hids id (List.mem_cons_of_mem _ hid))
      (fun id hid => hsources id (List.mem_cons_of_mem _ hid)) (by omega)
    rw [Nat.add_assoc, Nat.add_comm 1] at hrest
    rw [List.flatMap_cons]
    unfold pushCode
    rw [hsource]
    exact ((leads_source (by decide) hwithin).append (leads_push (by omega) rcx)).append hrest

/-- What is saved across a call are registers of the pool. -/
theorem savedAcross_subset (pos : Nat) :
  savedAcross f pos ⊆ Register.pool
  := by
  intro r hr
  obtain ⟨id, hregister, ⟨start, -, hstart, -⟩, -⟩ := IR.exists_of_mem_savedAcross hr
  exact hf.pool id r (.inr (by rw [hstart]; rfl)) hregister

theorem length_savedAcross_le (pos : Nat) :
  (savedAcross f pos).length ≤ 9
  := ((IR.nodup_savedAcross f pos).subperm (hf.savedAcross_subset pos)).length_le

/-! ### Calls -/

variable {helper : Helper} {args : List Argument} {stack : List OperandId} {code : List Fragment}

/-- A call that passes less than 2³¹ bytes finds room for all that it pushes, and the size of what
it passes can be carried. -/
theorem callWords_room (pos : Nat) (hcarried : 8 * (stack.length + 1) < 2 ^ 31) :
  Frame.bytes f.tempCount + Frame.savedBytes + 8 * callWords f pos stack < 2 ^ 33 ∧
    8 * (stack.length + paddingWords f pos stack) < 2 ^ 31
  := by
  have hsaved := hf.length_savedAcross_le pos
  have hframe := v.carried
  have hbytes : Frame.savedBytes = 40 := rfl
  unfold callWords paddingWords
  omega

/-- Registers, padding and the values of operands are pushed. -/
theorem leads_pushesCode (hstack : ∀ id ∈ stack, id < f.operands.size)
    (hsources : ∀ id ∈ stack, ∃ source, source? f id = some source)
    (hroom : Frame.bytes f.tempCount + Frame.savedBytes + 8 * callWords f pos stack < 2 ^ 33) :
  v.Leads (v.Deep 0) (pushesCode f pos stack) (v.Deep (callWords f pos stack))
  := by
  have hwords : callWords f pos stack
      = (savedAcross f pos).length + paddingWords f pos stack + stack.length := rfl
  have hsaved : v.Leads (v.Deep 0) (codes ((savedAcross f pos).map .push))
      (v.Deep (savedAcross f pos).length) := by
    have hleads := leads_pushes (v := v) (d := 0) (savedAcross f pos) (by omega)
    rwa [Nat.zero_add] at hleads
  have hpadding : v.Leads (v.Deep (savedAcross f pos).length)
      (if paddingWords f pos stack = 1 then codes [.binaryImm .sub rsp 8] else [])
      (v.Deep ((savedAcross f pos).length + paddingWords f pos stack)) := by
    split
    · rename_i hone
      rw [hone]
      exact leads_lower
    · have hzero : paddingWords f pos stack = 0 := by
        unfold paddingWords at *
        omega
      rw [hzero]
      exact .nil fun _ hp => hp
  have hoperands := hf.leads_pushOperands (d := (savedAcross f pos).length + paddingWords f pos stack)
    stack.reverse (fun id hid => hstack id (List.mem_reverse.mp hid))
    (fun id hid => hsources id (List.mem_reverse.mp hid)) (by rw [List.length_reverse]; omega)
  rw [List.length_reverse] at hoperands
  exact (hsaved.append hpadding).append hoperands

/-- Loading the arguments of a call leaves the stack as it is. -/
theorem leads_arguments (hargs : ∀ id, .value id ∈ args → id < f.operands.size)
    (hsources : ∀ arg ∈ args, ∃ source, argumentSource? f arg = some source) :
  v.Leads (v.Deep d) ((placeArguments args).flatMap (argumentCode f)) (v.Deep d)
  := by
  apply Leads.flatMap
  intro placed hplaced
  obtain ⟨harg, hregister⟩ := List.of_mem_zip ((perm_placeArguments args).mem_iff.mp hplaced)
  obtain ⟨source, hsource⟩ := hsources placed.1 harg
  unfold argumentCode
  rw [hsource]
  refine leads_source (mem_general_of_arguments hregister) (hf.argumentSource_within ?_ hsource)
  intro id hid
  exact hargs id (hid ▸ harg)

/-- The code after a call takes back what the code before it pushed. -/
theorem leads_restoreCode (hcarried : 8 * (stack.length + paddingWords f pos stack) < 2 ^ 31) :
  v.Leads (v.Deep (callWords f pos stack)) (restoreCode f pos stack) (v.Deep 0)
  := by
  have hwords : callWords f pos stack
      = (savedAcross f pos).reverse.length + (stack.length + paddingWords f pos stack) := by
    unfold callWords
    rw [List.length_reverse]
    omega
  have hpops := leads_pops (v := v) (d := 0) (savedAcross f pos).reverse
    fun r hr => mem_general_of_pool (hf.savedAcross_subset pos (List.mem_reverse.mp hr))
  rw [Nat.zero_add] at hpops
  rw [hwords]
  exact (leads_raise hcarried).append hpops

/-- The whole code of a call leaves the stack as it found it, if what it passes takes less than
2³¹ bytes. -/
theorem leads_callHelper (hargs : ∀ id, .value id ∈ args → id < f.operands.size)
    (hstack : ∀ id ∈ stack, id < f.operands.size) (hcarried : 8 * (stack.length + 1) < 2 ^ 31)
    (h : callHelper f pos helper args stack = .ok code) :
  v.Leads (v.Deep 0) code (v.Deep 0)
  := by
  obtain ⟨-, hsources, hpushed, rfl⟩ := callHelper_eq_ok h
  obtain ⟨hroom, hraised⟩ := hf.callWords_room pos hcarried
  have haddress : v.Leads (v.Deep (callWords f pos stack)) [.helperAddress rax helper]
      (v.Deep (callWords f pos stack)) :=
    leads_plain rfl rfl rfl fun _ => .inl ⟨_, rfl⟩
  have hprepare : v.Leads (v.Deep 0) (prepareCode f pos helper args stack)
      (v.Deep (callWords f pos stack)) :=
    ((hf.leads_pushesCode hstack hpushed hroom).append (hf.leads_arguments hargs hsources)).append haddress
  exact hprepare.append ((leads_call hroom (callWords_mod pos stack) rax).append
    (hf.leads_restoreCode hraised))

end Suits

/-! ### Code of instructions -/

variable (v) in
/-- If an attempt to emit code succeeds, the code leaves the stack as it found it. -/
def Balanced (e : Emit) : Prop := ∀ code, e = .ok code → v.Leads (v.Deep 0) code (v.Deep 0)

theorem Balanced.append {a b : Emit} (ha : v.Balanced a) (hb : v.Balanced b) :
  v.Balanced (do return (← a) ++ (← b))
  := by
  intro code hcode
  obtain ⟨x, y, hx, hy, rfl⟩ := append_eq_ok hcode
  exact (ha x hx).append (hb y hy)

/-- Inline code leaves the stack alone. -/
theorem leads_inlineCode {op : BinOp} {insts : List Instruction} (h : inlineCode? op = some insts) :
  v.Leads (v.Deep d) (codes insts) (v.Deep d)
  := by
  have hrun : (∀ inst ∈ insts, inst.slot? = none) → (∀ p, ∃ q, Processor.run insts p = some q) →
      v.Leads (v.Deep d) (codes insts) (v.Deep d) := by
    intro hslots htotal
    refine .codes fun p hp => ?_
    obtain ⟨q, hq⟩ := htotal p
    have hkeeps := Processor.keeps_run (changesOnly_inlineCode h) hq
    exact .of_run hslots hq (hp.keeps (hkeeps.mono (by decide)))
  have hcompare : ∀ cond, compareCode cond = insts → v.Leads (v.Deep d) (codes insts) (v.Deep d) := by
    rintro cond rfl
    apply hrun
    · cases cond <;> decide
    · intro p
      obtain ⟨q, hq, -⟩ := run_compareCode cond p
      exact ⟨q, hq⟩
  cases op with
  | add | eq => cases h
  | gt | geq | fastEq => exact hcompare _ (Option.some.inj h)
  | intAdd | sub | mul | and | or =>
    cases h
    exact hrun (by decide) fun p => ⟨_, rfl⟩
  | div =>
    cases h
    -- Each of the three instructions leaves the stack alone, and the second one may fault.
    have hcqo : v.Leads (v.Deep d) [.code .cqo] (v.Deep d) := leads_plain rfl rfl rfl fun _ => .inl ⟨_, rfl⟩
    have hidiv : v.Leads (v.Deep d) [.code (.idiv rcx)] (v.Deep d) :=
      leads_plain rfl rfl rfl fun _ => .inr ⟨_, rfl⟩
    have hshift : v.Leads (v.Deep d) [.code (.shift .shl rax 3)] (v.Deep d) :=
      leads_plain rfl rfl rfl fun _ => .inl ⟨_, rfl⟩
    exact hcqo.append (hidiv.append hshift)

/-- A temp is written to its slot. -/
theorem leads_storeTemp {n : Nat} (hn : n < f.tempCount) :
  v.Leads (v.Deep 0) (codes [storeSlot (Frame.temp n) rax]) (v.Deep 0)
  := by
  have hcarried := v.carried
  have hbytes := le_bytes f.tempCount
  refine .instruction fun p hp => .next ?_ rfl ?_
  · rintro _ ⟨⟩
    exact ⟨hp.base, within_temp hn hcarried⟩
  · have haddress : p.address rbp (Frame.temp n) = v.caller.registers rsp - 8 - .ofNat (8 * (4 + n)) := by
      have hplace : Frame.temp n = Int32.ofInt (-((8 * (4 + n) : Nat) : Int)) :=
        congrArg Int32.ofInt (show -8 * (4 + (n : Int)) = _ by omega)
      rw [hplace, address_slot p (by omega), hp.base]
    rw [haddress]
    exact hp.store_below (by change _ + 40 < _; omega) (by omega) (.inl (by omega)) _

/-- Leaving a function ends the execution of its code. -/
theorem leads_exitCode :
  v.Leads (v.Deep 0) exitCode fun _ => False
  := by
  rw [exitCode_eq]
  have hexit : v.Leads (v.Deep 0) (codes exitInstructions) (Left v.caller) := by
    refine .codes fun p hp => ?_
    obtain ⟨q, hq, hleft⟩ := hp.run_exit
    exact .of_run (by decide) hq hleft
  exact hexit.append (.instruction fun p hp => .ret hp)

namespace Suits

variable (hf : Suits f v) {id : OperandId}
include hf

/-- Loading an operand into a general register is balanced. -/
theorem balanced_load {dst : Register} (hdst : dst ∈ general) (hid : id < f.operands.size) :
  v.Balanced (loadOperand f dst id)
  := fun _ h => hf.leads_loadOperand hdst hid h

/-- A call that passes nothing on the stack is balanced. -/
theorem balanced_call {helper : Helper} {args : List Argument}
    (hargs : ∀ id, .value id ∈ args → id < f.operands.size) :
  v.Balanced (callHelper f pos helper args)
  := fun _ h => hf.leads_callHelper hargs (by simp) (by decide) h

/-- Reading an operand is balanced, whether it takes a call or not. -/
theorem balanced_read (hid : id < f.operands.size) :
  v.Balanced (readOperand f pos id)
  := by
  unfold readOperand
  cases (f.operand id).kind with
  | global n | contents n | function n => exact hf.balanced_call (by simp)
  | _ => exact hf.balanced_load (by decide) hid

/-- A variable is written to the array of locals, which is outside the frame. -/
theorem leads_storeVar {n : Nat} (hid : f.kind id = .var n) :
  v.Leads (v.Deep 0) (codes [loadSlot rcx Frame.locals, .store rcx (entryOffset n) rax]) (v.Deep 0)
  := by
  have hcarried := v.carried
  have hparameters := v.parameters
  refine .codes fun p hp => ?_
  have hload : v.Deep 0 (p.set rcx (v.caller.registers rsi)) := hp.keeps (Processor.Keeps.set (by decide) _)
  refine Traverses.next rfl ?_ (Traverses.next rfl (by rintro _ ⟨⟩) ?_)
  · rintro _ ⟨⟩
    exact ⟨hp.base, (within_parameters f.tempCount).2.1⟩
  · rw [hp.locals]
    exact hload.store_outside (by change _ + 40 + 8 < _; omega) (by omega) (hf.var id n hid) _

/-- Writing an operand is balanced, whether it takes a call or not. -/
theorem balanced_write (hid : id < f.operands.size) :
  v.Balanced (writeOperand f pos id)
  := by
  have htemp := hf.temp id
  have hvar : ∀ n, f.kind id = .var n → v.Leads (v.Deep 0)
      (codes [loadSlot rcx Frame.locals, .store rcx (entryOffset n) rax]) (v.Deep 0) :=
    fun n hn => hf.leads_storeVar hn
  have hmove : ∀ r, f.IsValue id → (f.operand id).register = some r →
      v.Leads (v.Deep 0) (moveTo r rax) (v.Deep 0) :=
    fun r hvalue hr => leads_mov (mem_general_of_pool (hf.pool id r (.inl hvalue) hr)) rax
  have hvalue : f.IsValue id ↔ (f.operand id).isTemp = true ∨ (f.operand id).isVar = true := Iff.rfl
  unfold IR.Operand.isTemp IR.Operand.isVar at hvalue
  rw [hvalue] at hmove
  unfold IR.Function.kind at htemp hvar
  unfold writeOperand
  dsimp only
  generalize (f.operand id).kind = kind at htemp hvar hmove ⊢
  generalize (f.operand id).register = register at hmove ⊢
  cases kind with
  | temp n =>
    cases register with
    | none =>
      rintro _ ⟨⟩
      exact leads_storeTemp (htemp n hid rfl)
    | some r =>
      rintro _ ⟨⟩
      exact hmove r (.inl rfl) rfl
  | var n =>
    cases register with
    | none =>
      rintro _ ⟨⟩
      exact hvar n rfl
    | some r =>
      rintro _ ⟨⟩
      exact hmove r (.inr rfl) rfl
  | global n | contents n => exact hf.balanced_call (by simp)
  | _ => rintro _ ⟨⟩

/-- The code of a binary operation is balanced. -/
theorem balanced_binary (op : BinOp) {lhs rhs : OperandId} (hlhs : lhs < f.operands.size)
    (hrhs : rhs < f.operands.size) :
  v.Balanced (binaryCode f pos op lhs rhs)
  := by
  unfold binaryCode
  cases hinline : inlineCode? op with
  | none =>
    apply hf.balanced_call
    simp [hlhs, hrhs]
  | some insts =>
    intro code hcode
    obtain ⟨x, hx, hcode⟩ := bind_eq_ok hcode
    obtain ⟨y, hy, hcode⟩ := bind_eq_ok hcode
    cases hcode
    exact ((hf.balanced_load (by decide) hrhs x hx).append (hf.balanced_load (by decide) hlhs y hy)).append
      (leads_inlineCode hinline)

/-- A return ends the execution of the code. -/
theorem leads_ret {value : OperandId} (hvalue : value < f.operands.size) {code : List Fragment}
    (h : instCode f pos (.ret value) = .ok code) :
  v.Leads (v.Deep 0) code fun _ => False
  := by
  obtain ⟨x, hx, hcode⟩ := bind_eq_ok h
  cases hcode
  exact (hf.balanced_load (by decide) hvalue x hx).append leads_exitCode

/-- The code of a conditional jump is balanced. -/
theorem balanced_condJump {cond : OperandId} (hcond : cond < f.operands.size) (l : Label) :
  v.Balanced (instCode f pos (.condJump cond l))
  := by
  intro code hcode
  obtain ⟨x, hx, hcode⟩ := bind_eq_ok hcode
  cases hcode
  have hcompare : v.Leads (v.Deep 0) (codes [.binaryImm .cmp rax (Int32.ofNat Word.trueWord.toNat)])
      fun p => v.Deep 0 p ∧ (JumpForm.equal = .equal → p.flags.isSome = true) :=
    .instruction fun p hp => .next (by rintro _ ⟨⟩) rfl
      ⟨hp.keeps (Processor.keeps_combine (by decide) _ _), fun _ => rfl⟩
  exact ((hf.balanced_load (by decide) hcond x hx).append hcompare).append (.jump l)

/-- Loading a variable into its register is balanced. -/
theorem balanced_forceLoad (x : OperandId) :
  v.Balanced (instCode f pos (.forceLoad x))
  := by
  simp only [instCode]
  split
  · rename_i n r hkind hregister
    rintro _ ⟨⟩
    have hpool := hf.pool x r (.inl (.inr (IR.Function.isVar_iff.mpr ⟨n, hkind⟩))) hregister
    have hload : v.Leads (v.Deep 0) [.code (loadSlot rcx Frame.locals)] (v.Deep 0) :=
      leads_load (by decide) rbp fun _ => (within_parameters f.tempCount).2.1
    exact hload.append (leads_load (mem_general_of_pool hpool) rcx fun h => by cases h)
  · rintro _ ⟨⟩
    exact .nil fun _ hp => hp

/-- The code of a request to the runtime is balanced. -/
theorem balanced_request (request : IR.HelperCall) (huses : ∀ id ∈ request.uses, id < f.operands.size) :
  v.Balanced (requestCode f pos request)
  := by
  have hcall : ∀ helper args, (∀ id, .value id ∈ args → id ∈ request.uses) →
      v.Balanced (callHelper f pos helper args) :=
    fun helper args hargs => hf.balanced_call fun id hid => huses id (hargs id hid)
  cases request <;> simp only [requestCode] <;> apply hcall <;> simp [IR.HelperCall.uses]

/-- The code of an instruction leaves the stack as it found it, if its operands exist and what it
passes on the stack fits an immediate. -/
theorem balanced_instCode {inst : Inst} (hids : ∀ id ∈ inst.operands, id < f.operands.size)
    (hcarried : 8 * (inst.passed.length + 1) < 2 ^ 31) :
  v.Balanced (instCode f pos inst)
  := by
  cases inst with
  | assign dest src =>
    simp only [instCode]
    split
    · rintro _ ⟨⟩
      exact .nil fun _ hp => hp
    · obtain ⟨hdest, hsrc⟩ : dest < f.operands.size ∧ src < f.operands.size := by
        simpa [Inst.operands, Inst.defs, Inst.uses] using hids
      exact (hf.balanced_read hsrc).append (hf.balanced_write hdest)
  | store dest src =>
    obtain ⟨hdest, hsrc⟩ : dest < f.operands.size ∧ src < f.operands.size := by
      simpa [Inst.operands] using hids
    exact (hf.balanced_load (by decide) hsrc).append (hf.balanced_write hdest)
  | forceLoad x => exact hf.balanced_forceLoad x
  | binary op dest lhs rhs =>
    obtain ⟨hdest, hlhs, hrhs⟩ :
        dest < f.operands.size ∧ lhs < f.operands.size ∧ rhs < f.operands.size := by
      simpa [Inst.operands, Inst.defs, Inst.uses] using hids
    exact (hf.balanced_binary op hlhs hrhs).append (hf.balanced_write hdest)
  | unary op dest src =>
    intro code hcode
    obtain ⟨x, hx, hcode⟩ := bind_eq_ok hcode
    obtain ⟨y, hy, hcode⟩ := bind_eq_ok hcode
    cases hcode
    have hop : v.Leads (v.Deep 0) (codes [unaryCode op]) (v.Deep 0) := by
      cases op <;> exact leads_plain rfl rfl rfl fun _ => .inl ⟨_, rfl⟩
    obtain ⟨hdest, hsrc⟩ : dest < f.operands.size ∧ src < f.operands.size := by
      simpa [Inst.operands, Inst.defs, Inst.uses] using hids
    exact ((hf.balanced_load (by decide) hsrc x hx).append hop).append (hf.balanced_write hdest y hy)
  | call closure args =>
    intro code hcode
    obtain ⟨hfirst, hrest⟩ := List.forall_mem_cons.mp hids
    exact hf.leads_callHelper (by simpa using hfirst) hrest hcarried hcode
  | allocClosure function refs =>
    intro code hcode
    obtain ⟨hfirst, hrest⟩ := List.forall_mem_cons.mp hids
    exact hf.leads_callHelper (by simpa using hfirst) hrest hcarried hcode
  | ret value =>
    intro code hcode
    have hret := hf.leads_ret (hids value List.mem_cons_self) hcode
    exact hret.mono (fun _ hp => hp) fun _ hfalse => hfalse.elim
  | label l =>
    rintro _ ⟨⟩
    exact .label l
  | jump l | shortJump l =>
    rintro _ ⟨⟩
    exact (Leads.jump l).mono (fun p hp => ⟨hp, by rintro ⟨⟩⟩) fun _ hp => hp
  | condJump cond l =>
    exact hf.balanced_condJump (hids cond List.mem_cons_self) l
  | helper request =>
    exact hf.balanced_request request hids
  | assertion kind arg =>
    apply hf.balanced_call
    simpa using hids arg List.mem_cons_self
  | fork src dest1 dest2 =>
    intro code hcode
    obtain ⟨x, hx, hcode⟩ := bind_eq_ok hcode
    obtain ⟨y, hy, hcode⟩ := bind_eq_ok hcode
    obtain ⟨z, hz, hcode⟩ := bind_eq_ok hcode
    cases hcode
    obtain ⟨hdest1, hdest2, hsrc⟩ :
        dest1 < f.operands.size ∧ dest2 < f.operands.size ∧ src < f.operands.size := by
      simpa [Inst.operands, Inst.defs, Inst.uses] using hids
    exact ((hf.balanced_load (by decide) hsrc x hx).append (hf.balanced_write hdest1 y hy)).append
      (hf.balanced_write hdest2 z hz)

end Suits

end Invocation

end Machine

end StackCompiler
