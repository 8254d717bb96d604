import StackCompiler.Machine.Codegen
import StackCompiler.Proofs.Code.WellFormed

/-!
# Every instruction has code

`Runs` says of an attempt to emit code that it succeeds, with code that neither jumps nor is
jumped to.  Values that fit their instructions can be loaded and written, so the code of an
instruction runs, apart from the jump or the label that it is.
-/

namespace StackCompiler.Machine

open IR (Inst OperandId Label)
open Register (rax rcx)

/-- Whether a fragment neither jumps nor is jumped to. -/
def Fragment.isCode : Fragment → Bool
  | .item (.code _ _) | .helperAddress _ _ | .stringAddress _ _ => true
  | .item _ => false

/-- There is code, which neither jumps nor is jumped to. -/
def Runs (e : Emit) : Prop := ∃ c, e = .ok c ∧ c.all Fragment.isCode = true

/-! ### Pieces of code -/

/-- Plain instructions neither jump nor are jumped to. -/
theorem isCode_codes (insts : List Instruction) :
  (codes insts).all Fragment.isCode = true
  := by
  rw [List.all_eq_true]
  intro fragment h
  obtain ⟨inst, -, rfl⟩ := List.mem_map.mp h
  rfl

theorem runs_codes (insts : List Instruction) :
  Runs (.ok (codes insts))
  := ⟨_, rfl, isCode_codes insts⟩

theorem runs_moveTo (dst src : Register) :
  Runs (.ok (moveTo dst src))
  := by
  refine ⟨_, rfl, ?_⟩
  unfold moveTo
  split
  · rfl
  · exact isCode_codes _

theorem runs_loadConstant (dst : Register) (c : Bytecode.Constant) :
  Runs (.ok (loadConstant dst c))
  := by
  cases c with
  | string s => exact ⟨_, rfl, rfl⟩
  | _ => exact runs_codes _

theorem Runs.append {a b : Emit} (ha : Runs a) (hb : Runs b) :
  Runs (do return (← a) ++ (← b))
  := by
  obtain ⟨c, rfl, hc⟩ := ha
  obtain ⟨d, rfl, hd⟩ := hb
  refine ⟨c ++ d, rfl, ?_⟩
  rw [List.all_append, hc, hd, Bool.and_self]

/-- Three parts that have code have code together. -/
theorem Runs.append₃ {a b c : Emit} (ha : Runs a) (hb : Runs b) (hc : Runs c) :
  Runs (do return (← a) ++ (← b) ++ (← c))
  := by
  obtain ⟨x, rfl, hx⟩ := ha
  obtain ⟨y, rfl, hy⟩ := hb
  obtain ⟨z, rfl, hz⟩ := hc
  refine ⟨x ++ y ++ z, rfl, ?_⟩
  rw [List.all_append, List.all_append, hx, hy, hz]
  rfl

/-- If the members of a list all have code, they have code together. -/
theorem runs_emitAll {α : Type} {emit : α → Emit} {xs : List α} (h : ∀ x ∈ xs, Runs (emit x)) :
  Runs (emitAll emit xs)
  := by
  have hall : ∃ cs, xs.mapM emit = .ok cs ∧ cs.flatten.all Fragment.isCode = true := by
    induction xs with
    | nil => exact ⟨[], rfl, rfl⟩
    | cons x xs ih =>
      obtain ⟨c, hx, hc⟩ := h x List.mem_cons_self
      obtain ⟨cs, hxs, hcs⟩ := ih fun y hy => h y (List.mem_cons_of_mem _ hy)
      refine ⟨c :: cs, ?_, ?_⟩
      · rw [List.mapM_cons, hx, hxs]
        rfl
      · rw [List.flatten_cons, List.all_append, hc, hcs, Bool.and_self]
  obtain ⟨cs, hcs, hcode⟩ := hall
  refine ⟨cs.flatten, ?_, hcode⟩
  unfold emitAll
  rw [hcs]
  rfl

/-! ### Operands -/

section

variable {f : IR.Function} {pos : Nat}

/-- The load of an operand that takes no helper has code. -/
theorem runs_loadOperand (dst : Register) {id : OperandId}
    (h : ∀ n, f.kind id ≠ .global n ∧ f.kind id ≠ .contents n ∧ f.kind id ≠ .function n) :
  Runs (loadOperand f dst id)
  := by
  unfold loadOperand
  dsimp only
  split
  · exact runs_moveTo ..
  · exact runs_moveTo ..
  · exact runs_codes _
  · exact runs_codes _
  · exact runs_codes _
  · exact runs_loadConstant ..
  · exact runs_moveTo ..
  · rename_i n hkind
    exact absurd hkind (h n).1
  · rename_i n hkind
    exact absurd hkind (h n).2.1
  · rename_i n hkind
    exact absurd hkind (h n).2.2

theorem runs_loadTemp (dst : Register) {id : OperandId} (h : f.isTemp id = true) :
  Runs (loadOperand f dst id)
  := by
  obtain ⟨n, hn⟩ := IR.Function.isTemp_iff.mp h
  apply runs_loadOperand
  intro m
  rw [hn]
  exact ⟨nofun, nofun, nofun⟩

/-- Arguments are temps and what takes no helper itself. -/
theorem runs_loadArguments {args : List Argument} (h : ∀ id, .value id ∈ args → f.isTemp id = true) :
  Runs (emitAll (fun (arg, dst) => loadArgument f dst arg) (placeArguments args))
  := by
  apply runs_emitAll
  rintro ⟨arg, dst⟩ hmem
  have harg : arg ∈ args := by
    rcases List.mem_append.mp hmem with hmem | hmem <;>
    exact (List.of_mem_zip (List.mem_filter.mp hmem).1).1
  cases arg with
  | value id => exact runs_loadTemp dst (h id harg)
  | result | frame | stack => exact runs_moveTo ..
  | immediate | closure | cell => exact runs_codes _

/-- A helper is called with temps and with what takes no helper itself. -/
theorem runs_callHelper {helper : Helper} {args : List Argument} {stack : List OperandId}
    (hlen : args.length ≤ 4)
    (hargs : ∀ id, .value id ∈ args → f.isTemp id = true) (hstack : ∀ id ∈ stack, f.isTemp id = true) :
  Runs (callHelper f pos helper args stack)
  := by
  have hpush : Runs (emitAll (pushOperand f) stack.reverse) := by
    apply runs_emitAll
    intro id hid
    exact (runs_loadTemp rcx (hstack id (List.mem_reverse.mp hid))).append (runs_codes [.push rcx])
  obtain ⟨pushed, hpushed, hpush⟩ := hpush
  obtain ⟨loaded, hloaded, hload⟩ := runs_loadArguments hargs
  have hcode : ∀ (c : Prop) [Decidable c] insts,
      (if c then codes insts else []).all Fragment.isCode = true := by
    intro c _ insts
    split
    · exact isCode_codes insts
    · rfl
  unfold callHelper
  rw [if_neg (show ¬ Register.arguments.length < args.length from Nat.not_lt.mpr hlen), hpushed, hloaded]
  refine ⟨_, rfl, ?_⟩
  simp only [List.all_append, isCode_codes, hcode, hpush, hload, Bool.true_and, Bool.and_true]
  rfl

/-- Reading any operand has code. -/
theorem runs_readOperand (id : OperandId) :
  Runs (readOperand f pos id)
  := by
  unfold readOperand
  split
  · exact runs_callHelper (by simp) (by simp) nofun
  · exact runs_callHelper (by simp) (by simp) nofun
  · exact runs_callHelper (by simp) (by simp) nofun
  · rename_i hglobal hcontents hfunction
    exact runs_loadOperand rax fun n => ⟨hglobal n, hcontents n, hfunction n⟩

/-- Writing a temp or another place that can be written has code. -/
theorem runs_writeOperand {id : OperandId} (h : f.isTemp id = true ∨ (f.kind id).isPlace = true) :
  Runs (writeOperand f pos id)
  := by
  have hkind : (f.kind id).isPlace = true ∨ ∃ n, f.kind id = .temp n :=
    h.symm.imp_right IR.Function.isTemp_iff.mp
  unfold IR.Function.kind at hkind
  unfold writeOperand
  dsimp only
  cases hk : (f.operand id).kind with
  | temp n | var n =>
    cases (f.operand id).register with
    | none => exact runs_codes _
    | some r => exact runs_moveTo ..
  | global n | contents n => exact runs_callHelper (by simp) (by simp) nofun
  | const | cell | retval | function =>
    rw [hk] at hkind
    rcases hkind with hplace | ⟨n, hn⟩
    · cases hplace
    · cases hn

/-! ### Instructions -/

/-- The code of an instruction has the label and the jump that the instruction is. -/
structure Mirrors (inst : Inst) (c : List Fragment) : Prop where
  label : ∀ l, .item (.label l) ∈ c → inst = .label l
  jump : ∀ form l, .item (.jump form l) ∈ c →
    inst.target? = some l ∧ (form = .short → inst = .shortJump l)

/-- Code that neither jumps nor is jumped to has no label and no jump that the instruction is not.
-/
theorem Runs.mirrors {e : Emit} (h : Runs e) (inst : Inst) :
  ∃ c, e = .ok c ∧ Mirrors inst c
  := by
  obtain ⟨c, hc, hcode⟩ := h
  rw [List.all_eq_true] at hcode
  refine ⟨c, hc, ⟨fun l hl => ?_, fun form l hl => ?_⟩⟩
  · cases hcode _ hl
  · cases hcode _ hl

/-- An instruction with fitting operands has code. -/
theorem exists_instCode (pos : Nat) {inst : Inst} (h : inst.Fits f) :
  ∃ c, instCode f pos inst = .ok c ∧ Mirrors inst c
  := by
  have htemp : ∀ t ∈ inst.uses, (∀ d, inst ≠ .assign d t) → f.isTemp t = true := by
    intro t ht hassign
    rcases h.use_temp t ht with htemp | ⟨d, hd⟩
    · exact htemp
    · exact absurd hd (hassign d)
  have hwrite : ∀ t ∈ inst.defs, Runs (writeOperand f pos t) :=
    fun t ht => runs_writeOperand (.inl (h.def_temp t ht).2)
  cases inst with
  | assign dest src =>
    apply Runs.mirrors
    simp only [instCode]
    split
    · exact ⟨[], rfl, rfl⟩
    · exact (runs_readOperand src).append (hwrite dest List.mem_cons_self)
  | store dest src =>
    apply Runs.mirrors
    have hload := runs_loadTemp rax (htemp src List.mem_cons_self fun _ => nofun)
    exact hload.append (runs_writeOperand (.inr (h.store_place dest src rfl).2))
  | forceLoad x =>
    apply Runs.mirrors
    simp only [instCode]
    split
    · exact runs_codes _
    · exact ⟨[], rfl, rfl⟩
  | binary op dest lhs rhs =>
    apply Runs.mirrors
    have hlhs := htemp lhs List.mem_cons_self fun _ => nofun
    have hrhs := htemp rhs (List.mem_cons_of_mem _ List.mem_cons_self) fun _ => nofun
    refine Runs.append ?_ (hwrite dest List.mem_cons_self)
    unfold binaryCode
    split
    · exact (runs_loadTemp rcx hrhs).append₃ (runs_loadTemp rax hlhs) (runs_codes _)
    · exact runs_callHelper (by simp) (by simp [hlhs, hrhs]) nofun
  | unary op dest src =>
    apply Runs.mirrors
    have hload := runs_loadTemp rax (htemp src List.mem_cons_self fun _ => nofun)
    exact hload.append₃ (runs_codes [unaryCode op]) (hwrite dest List.mem_cons_self)
  | call closure args =>
    apply Runs.mirrors
    have hclosure := htemp closure List.mem_cons_self fun _ => nofun
    refine runs_callHelper (by simp) (by simp [hclosure]) fun id hid => ?_
    exact htemp id (List.mem_cons_of_mem _ hid) fun _ => nofun
  | allocClosure function refs =>
    apply Runs.mirrors
    have hfunction := htemp function List.mem_cons_self fun _ => nofun
    refine runs_callHelper (by simp) (by simp [hfunction]) fun id hid => ?_
    exact htemp id (List.mem_cons_of_mem _ hid) fun _ => nofun
  | ret value =>
    apply Runs.mirrors
    have hload := runs_loadTemp rax (htemp value List.mem_cons_self fun _ => nofun)
    exact hload.append (runs_codes _)
  | label l => exact ⟨_, rfl, ⟨by simp, by simp⟩⟩
  | jump l => exact ⟨_, rfl, ⟨by simp, by simp [Inst.target?]⟩⟩
  | shortJump l => exact ⟨_, rfl, ⟨by simp, by simp [Inst.target?]⟩⟩
  | condJump cond l =>
    have hload := runs_loadTemp rax (htemp cond List.mem_cons_self fun _ => nofun)
    obtain ⟨c, hc, hcode⟩ := hload
    rw [List.all_eq_true] at hcode
    refine ⟨_, by simp only [instCode, hc]; rfl, ⟨fun l' hl' => ?_, fun form l' hl' => ?_⟩⟩
    · simp [codes, Fragment.code] at hl'
      cases hcode _ hl'
    · simp [codes, Fragment.code] at hl'
      rcases hl' with hl' | ⟨rfl, rfl⟩
      · cases hcode _ hl'
      · exact ⟨rfl, nofun⟩
  | helper request =>
    apply Runs.mirrors
    have hargs : ∀ id ∈ request.uses, f.isTemp id = true := fun id hid => htemp id hid fun _ => nofun
    have hcall : ∀ helper args, args.length ≤ 4 → (∀ id, .value id ∈ args → id ∈ request.uses) →
        Runs (callHelper f pos helper args) :=
      fun helper args hlen huses => runs_callHelper hlen (fun id hid => hargs id (huses id hid)) nofun
    cases request <;> simp only [instCode, requestCode] <;> apply hcall <;>
      simp [IR.HelperCall.uses]
  | assertion kind arg =>
    apply Runs.mirrors
    have harg := htemp arg List.mem_cons_self fun _ => nofun
    exact runs_callHelper (by simp) (by simp [harg]) nofun
  | fork src dest1 dest2 =>
    apply Runs.mirrors
    have hload := runs_loadTemp rax (htemp src List.mem_cons_self fun _ => nofun)
    exact hload.append₃ (hwrite dest1 List.mem_cons_self)
      (hwrite dest2 (List.mem_cons_of_mem _ List.mem_cons_self))

/-- The code of an instruction. -/
def codeOf (f : IR.Function) (entry : Nat × Inst) : List Fragment :=
  match instCode f entry.1 entry.2 with
  | .ok c => c
  | .error _ => []

/-- The code of an instruction, after its comment. -/
def block (f : IR.Function) (entry : Nat × Inst) : List Fragment :=
  .item (.comment (f.instText entry.2)) :: codeOf f entry

/-- An instruction that fits a function has code, with the label and the jump that the instruction
is. -/
theorem mirrors_codeOf (entry : Nat × Inst) (h : entry.2.Fits f) :
  instCode f entry.1 entry.2 = .ok (codeOf f entry) ∧ Mirrors entry.2 (codeOf f entry)
  := by
  obtain ⟨c, hc, hmirrors⟩ := exists_instCode entry.1 h
  unfold codeOf
  rw [hc]
  exact ⟨rfl, hmirrors⟩

/-- The code of a function is that of its instructions, between code that neither jumps nor is
jumped to. -/
theorem exists_functionCode (h : ∀ entry ∈ f.live, entry.2.Fits f) :
  ∃ opening closing, functionCode f = .ok (opening ++ f.live.flatMap (block f) ++ closing) ∧
    opening.all Fragment.isCode = true ∧ closing.all Fragment.isCode = true
  := by
  have hbody : emitAll (commentedCode f) f.live = .ok (f.live.flatMap (block f)) := by
    have hall : ∀ entries : List (Nat × Inst), (∀ entry ∈ entries, entry.2.Fits f) →
        entries.mapM (commentedCode f) = .ok (entries.map (block f)) := by
      intro entries
      induction entries with
      | nil => exact fun _ => rfl
      | cons entry entries ih =>
        intro hfits
        have hentry := (mirrors_codeOf _ (hfits entry List.mem_cons_self)).1
        rw [List.mapM_cons, ih fun e he => hfits e (List.mem_cons_of_mem _ he)]
        unfold commentedCode
        dsimp only
        rw [hentry]
        rfl
    unfold emitAll
    rw [hall f.live h]
    rfl
  refine ⟨entryCode (Frame.size f.tempCount),
    if endsInReturn f then [] else codes [.setTo rax Word.noneWord] ++ exitCode, ?_, isCode_codes _, ?_⟩
  · unfold functionCode
    rw [hbody]
    rfl
  · split
    · rfl
    · rw [List.all_append, isCode_codes, Bool.true_and]
      exact isCode_codes _

end

end StackCompiler.Machine
