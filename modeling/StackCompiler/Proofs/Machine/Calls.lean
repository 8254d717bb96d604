import StackCompiler.Proofs.Machine.Operands

/-!
# Helper calls

The code of a call saves registers, keeps the stack aligned, pushes the words of operands and loads
the arguments.  Each step leaves alone what the steps after it read, so the arguments are loaded
with what they were before all of it.  The code after the call takes back what was pushed, given
that the helper has returned: it keeps the registers that a called function must keep and the
frame of its caller.
-/

namespace StackCompiler.Machine

open Bytecode (Constant)
open IR (OperandId BinOp Inst)
open Register (rax rcx rdx rsp rbp)

variable {m : Image} {f : IR.Function} {pos : Nat} {p q r : Processor}

/-! ### Sources of arguments -/

/-- Where the code of a call reads an argument. -/
def argumentSource? (f : IR.Function) : Argument → Option Source
  | .value id => source? f id
  | .result => some (.register rax)
  | .immediate n => some (.number n)
  | .closure => some (.slot Frame.closure)
  | .frame => some (.register rbp)
  | .cell n => some (.entry Frame.cells n)
  | .stack => some (.register rsp)

/-- The code that loads an argument is that of its source. -/
theorem loadArgument_of_source {arg : Argument} {source : Source} (h : argumentSource? f arg = some source)
    (dst : Register) :
  loadArgument f dst arg = .ok (source.code dst)
  := by
  cases arg with
  | value id => exact loadOperand_of_source h dst
  | _ =>
    cases h
    rfl

/-- If code in two parts is emitted, each part is. -/
theorem append_eq_ok {a b : Emit} {code : List Fragment} (h : (do return (← a) ++ (← b)) = Except.ok code) :
  ∃ x y, a = .ok x ∧ b = .ok y ∧ code = x ++ y
  := by
  cases a with
  | error e => cases h
  | ok x =>
    cases b with
    | error e => cases h
    | ok y =>
      cases h
      exact ⟨x, y, rfl, rfl, rfl⟩

/-- If code is emitted for each member of a list, all of it is emitted, in order. -/
theorem emitAll_of_forall {α : Type} {emit : α → Emit} {code : α → List Fragment} {xs : List α}
    (h : ∀ x ∈ xs, emit x = .ok (code x)) :
  emitAll emit xs = .ok (xs.flatMap code)
  := by
  have hall : xs.mapM emit = .ok (xs.map code) := by
    induction xs with
    | nil => rfl
    | cons x xs ih =>
      rw [List.mapM_cons, h x List.mem_cons_self, ih fun y hy => h y (List.mem_cons_of_mem _ hy)]
      rfl
  unfold emitAll
  rw [hall]
  rfl

/-- The code that loads an argument. -/
def argumentCode (f : IR.Function) (placed : Argument × Register) : List Fragment :=
  ((argumentSource? f placed.1).map (·.code placed.2)).getD []

/-- The code that pushes an operand. -/
def pushCode (f : IR.Function) (id : OperandId) : List Fragment :=
  ((source? f id).map (·.code rcx)).getD [] ++ codes [.push rcx]

/-! ### The code of a call -/

section

variable (f : IR.Function) (pos : Nat) (helper : Helper) (args : List Argument) (stack : List OperandId)

/-- The words that keep the stack pointer a multiple of sixteen. -/
def paddingWords : Nat := ((savedAcross f pos).length + stack.length) % 2

/-- The words that a call pushes. -/
def callWords : Nat := (savedAcross f pos).length + paddingWords f pos stack + stack.length

/-- The code that pushes what a call needs on the stack. -/
def pushesCode : List Fragment :=
  codes ((savedAcross f pos).map .push) ++
    (if paddingWords f pos stack = 1 then codes [.binaryImm .sub rsp 8] else []) ++
    stack.reverse.flatMap (pushCode f)

/-- The code of a call before the call itself. -/
def prepareCode : List Fragment :=
  pushesCode f pos stack ++ (placeArguments args).flatMap (argumentCode f) ++ [.helperAddress rax helper]

/-- The code of a call after the call itself. -/
def restoreCode : List Fragment :=
  (if 0 < 8 * (stack.length + paddingWords f pos stack) then
    codes [.binaryImm .add rsp (Int32.ofNat (8 * (stack.length + paddingWords f pos stack)))] else []) ++
    codes ((savedAcross f pos).reverse.map .pop)

end

variable {helper : Helper} {args : List Argument} {stack : List OperandId}

/-- The arguments are loaded in some order, each into its own register. -/
theorem perm_placeArguments (args : List Argument) :
  (placeArguments args).Perm (args.zip Register.arguments)
  := by
  have hperm := List.filter_append_perm (fun x : Argument × Register => decide (x.1 ≠ .result))
    (args.zip Register.arguments)
  simp only [decide_not, Bool.not_not] at hperm
  unfold placeArguments
  simp only [ne_eq, decide_not]
  exact hperm

/-- The code of a call whose arguments and operands have sources prepares the call, makes it and
restores what was there. -/
theorem callHelper_eq (hcount : args.length ≤ Register.arguments.length)
    (hargs : ∀ arg ∈ args, ∃ source, argumentSource? f arg = some source)
    (hstack : ∀ id ∈ stack, ∃ source, source? f id = some source) :
  callHelper f pos helper args stack
    = .ok (prepareCode f pos helper args stack ++ .code (.call rax) :: restoreCode f pos stack)
  := by
  have hpushed : emitAll (pushOperand f) stack.reverse = .ok (stack.reverse.flatMap (pushCode f)) := by
    apply emitAll_of_forall
    intro id hid
    obtain ⟨source, hsource⟩ := hstack id (List.mem_reverse.mp hid)
    unfold pushOperand pushCode
    rw [loadOperand_of_source hsource, hsource]
    rfl
  have hloaded : emitAll (fun (placed : Argument × Register) => loadArgument f placed.2 placed.1)
      (placeArguments args) = .ok ((placeArguments args).flatMap (argumentCode f)) := by
    apply emitAll_of_forall
    intro placed hplaced
    obtain ⟨source, hsource⟩ := hargs placed.1 (List.of_mem_zip ((perm_placeArguments args).mem_iff.mp hplaced)).1
    unfold argumentCode
    rw [loadArgument_of_source hsource, hsource]
    rfl
  unfold callHelper
  rw [if_neg (Nat.not_lt.mpr hcount)]
  dsimp only
  rw [hpushed]
  change (emitAll (fun (placed : Argument × Register) => loadArgument f placed.2 placed.1)
    (placeArguments args) >>= _) = _
  rw [hloaded]
  unfold prepareCode pushesCode restoreCode paddingWords
  simp only [bind, Except.bind, pure, Except.pure, List.append_assoc, List.cons_append, List.nil_append]

/-! ### Pushing -/

/-- A source that neither pushes below a stack pointer nor changes of given registers disturb. -/
structure Source.Kept (changed : List Register) (p : Processor) (n : Nat) (source : Source) : Prop where
  register : ∀ r, source = .register r → r ≠ rsp ∧ r ∉ changed
  outside : ∀ a ∈ source.addresses p, OutsideWord (p.registers rsp) n a

variable {changed : List Register} {words : List Word}

/-- The word of a source that pushes do not disturb is the same when words have been pushed. -/
theorem Source.Kept.word_eq {n : Nat} {source : Source} (h : source.Kept changed p n)
    (hpushed : Processor.Pushed changed p words q) (hn : 8 * words.length ≤ n) (hbase : rbp ∉ changed) :
  source.word m q = source.word m p
  := by
  apply Source.word_congr
  · exact hpushed.registers rbp (by decide) hbase
  · intro r hr
    obtain ⟨hrsp, hchanged⟩ := h.register r hr
    exact hpushed.registers r hrsp hchanged
  · exact fun a ha => hpushed.load_eq ((h.outside a ha).mono hn)

/-- Registers are pushed one after the other. -/
theorem pushed_registers (registers : List Register) (h : Processor.Pushed changed p words q)
    (hroom : 8 * (words.length + registers.length) < 2 ^ 64)
    (hregisters : ∀ s ∈ registers, s ≠ rsp ∧ s ∉ changed) :
  ∃ r, Processor.run (registers.map .push) q = some r ∧
    Processor.Pushed changed p ((registers.map p.registers).reverse ++ words) r
  := by
  induction registers generalizing words q with
  | nil => exact ⟨q, rfl, h⟩
  | cons first rest ih =>
    obtain ⟨hrsp, hchanged⟩ := hregisters first List.mem_cons_self
    rw [List.length_cons] at hroom
    have hpush := h.push (by omega) (q.registers first)
    rw [h.registers first hrsp hchanged] at hpush
    obtain ⟨r, hrun, hpushed⟩ := ih hpush (by rw [List.length_cons]; omega)
      fun s hs => hregisters s (List.mem_cons_of_mem _ hs)
    refine ⟨r, ?_, ?_⟩
    · rw [List.map_cons, Processor.run_cons, ← hrun, ← h.registers first hrsp hchanged]
      rfl
    · rw [List.map_cons, List.reverse_cons, List.append_assoc]
      exact hpushed

/-- The words of operands are pushed one after the other. -/
theorem pushed_operands (ids : List OperandId) (h : Processor.Pushed [rcx] p words q) {n : Nat}
    (hroom : 8 * (words.length + ids.length) ≤ n) (hn : n < 2 ^ 64)
    (hids : ∀ id ∈ ids, ∃ source, source? f id = some source ∧ source.Kept [rcx] p n) :
  ∃ (r : Processor) (values : List Word), q.runCode m (ids.flatMap (pushCode f)) = some r ∧
    ids.map (operandWord? m f p) = values.map some ∧ Processor.Pushed [rcx] p (values.reverse ++ words) r
  := by
  induction ids generalizing words q with
  | nil => exact ⟨q, [], rfl, rfl, h⟩
  | cons first rest ih =>
    obtain ⟨source, hsource, hkept⟩ := hids first List.mem_cons_self
    rw [List.length_cons] at hroom
    have hword : source.word m q = source.word m p := hkept.word_eq h (by omega) (by decide)
    have hload : Processor.Pushed [rcx] p words (q.set rcx (source.word m p)) :=
      h.keeps (Processor.Keeps.set (by decide) _) (by decide)
    have hpush := hload.push (by omega) (source.word m p)
    obtain ⟨r, values, hrun, hvalues, hpushed⟩ := ih hpush (by rw [List.length_cons]; omega)
      fun id hid => hids id (List.mem_cons_of_mem _ hid)
    refine ⟨r, source.word m p :: values, ?_, ?_, ?_⟩
    · rw [List.flatMap_cons, Processor.runCode_append]
      have hfirst : q.runCode m (pushCode f first)
          = some ((q.set rcx (source.word m p)).push (source.word m p)) := by
        unfold pushCode
        rw [hsource, Processor.runCode_append]
        simp only [Option.map_some, Option.getD_some, Source.runCode_code, hword, Option.bind_some]
        rfl
      rw [hfirst]
      exact hrun
    · rw [List.map_cons, List.map_cons, hvalues]
      unfold operandWord?
      rw [hsource]
      rfl
    · rw [List.reverse_cons, List.append_assoc]
      exact hpushed

/-! ### Loading arguments -/

/-- Arguments are loaded one after the other, and none of them is overwritten before it is read. -/
theorem loaded_arguments (placed : List (Argument × Register)) (hnodup : (placed.map (·.2)).Nodup)
    (hplaced : ∀ x ∈ placed, x.2 ∈ Register.arguments)
    (hsources : ∀ x ∈ placed, ∃ source, argumentSource? f x.1 = some source ∧
      ∀ s, source = .register s → s ∉ Register.arguments) :
  ∃ r, q.runCode m (placed.flatMap (argumentCode f)) = some r ∧ Processor.Keeps (placed.map (·.2)) q r ∧
    ∀ x ∈ placed, (argumentSource? f x.1).map (·.word m q) = some (r.registers x.2)
  := by
  induction placed generalizing q with
  | nil => exact ⟨q, rfl, ⟨fun _ _ => rfl, rfl⟩, nofun⟩
  | cons first rest ih =>
    obtain ⟨hfirst, hrest⟩ := List.nodup_cons.mp hnodup
    obtain ⟨source, hsource, hregister⟩ := hsources first List.mem_cons_self
    have hload : Processor.Keeps [first.2] q (q.set first.2 (source.word m q)) :=
      Processor.Keeps.set List.mem_cons_self _
    have hargument := hplaced first List.mem_cons_self
    obtain ⟨r, hrun, hkeeps, hwords⟩ := ih (q := q.set first.2 (source.word m q)) hrest
      (fun x hx => hplaced x (List.mem_cons_of_mem _ hx)) fun x hx => hsources x (List.mem_cons_of_mem _ hx)
    refine ⟨r, ?_, ?_, ?_⟩
    · rw [List.flatMap_cons, Processor.runCode_append]
      unfold argumentCode
      rw [hsource]
      simp only [Option.map_some, Option.getD_some, Source.runCode_code, Option.bind_some]
      exact hrun
    · exact (hload.mono (by simp)).trans (hkeeps.mono (List.subset_cons_self ..))
    · intro x hx
      rcases List.mem_cons.mp hx with rfl | hx
      · rw [hsource, hkeeps.registers_eq _ hfirst]
        simp
      · obtain ⟨source', hsource', hregister'⟩ := hsources x (List.mem_cons_of_mem _ hx)
        have hword := hwords x hx
        rw [hsource', Option.map_some] at hword ⊢
        rw [← hword, Source.word_of_keeps hload]
        · intro hmem
          rw [← List.mem_singleton.mp hmem] at hargument
          exact absurd hargument (by decide)
        · rintro s rfl hmem
          rw [← List.mem_singleton.mp hmem] at hargument
          exact hregister' s rfl hargument

/-- What a list without repetitions is paired with has it only once. -/
theorem nodup_map_snd_zip {α β : Type} {xs : List α} {ys : List β} (h : ys.Nodup) :
  ((xs.zip ys).map (·.2)).Nodup
  := by
  induction xs generalizing ys with
  | nil => exact List.nodup_nil
  | cons x xs ih =>
    cases ys with
    | nil => exact List.nodup_nil
    | cons y ys =>
      obtain ⟨hy, hys⟩ := List.nodup_cons.mp h
      refine List.nodup_cons.mpr ⟨fun hmem => ?_, ih hys⟩
      obtain ⟨z, hz, rfl⟩ := List.mem_map.mp hmem
      exact hy (List.of_mem_zip hz).2

/-- The word of an argument, given the address of the words that are pushed for the call. -/
def argumentWord? (m : Image) (f : IR.Function) (p : Processor) (top : UInt64) : Argument → Option Word
  | .stack => some top
  | arg => (argumentSource? f arg).map (·.word m p)

/-! ### Before the call -/

/-- A word of padding is whatever lies there. -/
theorem pushed_padding (h : Processor.Pushed changed p words q) (hroom : 8 * (words.length + 1) < 2 ^ 64) :
  ∃ r w, q.execute (.binaryImm .sub rsp 8) = some r ∧ Processor.Pushed changed p (w :: words) r
  := by
  refine ⟨_, q.load (q.registers rsp - 8), rfl, ?_⟩
  apply h.extend hroom
  · rfl
  · rfl
  · exact fun _ _ => rfl
  · exact fun s hs => if_neg hs

/-- The words of operands, padding and registers have been pushed for a call. -/
structure PushedCall (m : Image) (f : IR.Function) (pos : Nat) (ids : List OperandId)
    (changed : List Register) (p : Processor) (words : List Word) (q : Processor) : Prop
    extends Processor.Pushed changed p words q where
  length : words.length = callWords f pos ids
  operand : ∀ (i : Nat) id, ids[i]? = some id → ∃ w, words[i]? = some w ∧ operandWord? m f p id = some w
  saved : ∀ (i : Nat) s, (savedAcross f pos).reverse[i]? = some s →
    words[ids.length + paddingWords f pos ids + i]? = some (p.registers s)

/-- The words of operands, padding and saved registers, once they are pushed, are those of a call.
-/
theorem pushedCall_append {values padding : List Word}
    (hvalues : stack.map (operandWord? m f p) = values.map some)
    (hpadding : padding.length = paddingWords f pos stack)
    (h : Processor.Pushed changed p (values ++ (padding ++ ((savedAcross f pos).map p.registers).reverse)) q) :
  PushedCall m f pos stack changed p (values ++ (padding ++ ((savedAcross f pos).map p.registers).reverse)) q
  := by
  have hcount : values.length = stack.length := by
    simpa using (congrArg List.length hvalues).symm
  refine ⟨h, ?_, fun i id hi => ?_, fun i s hs => ?_⟩
  · simp only [List.length_append, List.length_reverse, List.length_map]
    unfold callWords
    omega
  · have hword := congrArg (·[i]?) hvalues
    simp only [List.getElem?_map, hi, Option.map_some] at hword
    obtain ⟨w, hw, hsome⟩ := Option.map_eq_some_iff.mp hword.symm
    obtain ⟨hlt, -⟩ := List.getElem?_eq_some_iff.mp hw
    exact ⟨w, by rw [List.getElem?_append_left hlt, hw], hsome.symm⟩
  · rw [← hcount, ← hpadding, Nat.add_assoc, List.getElem?_append_right (Nat.le_add_right ..),
      Nat.add_sub_cancel_left, List.getElem?_append_right (Nat.le_add_right ..), Nat.add_sub_cancel_left,
      ← List.map_reverse, List.getElem?_map, hs]
    rfl

/-- Registers, padding and the words of operands are pushed. -/
theorem run_pushesCode (m : Image) (hroom : 8 * callWords f pos stack < 2 ^ 64)
    (hsaved : ∀ s ∈ savedAcross f pos, s ≠ rsp ∧ s ∉ [rcx])
    (hstack : ∀ id ∈ stack, ∃ source, source? f id = some source ∧
      source.Kept [rcx] p (8 * callWords f pos stack)) :
  ∃ q words, p.runCode m (pushesCode f pos stack) = some q ∧ PushedCall m f pos stack [rcx] p words q
  := by
  have hwords : callWords f pos stack
      = (savedAcross f pos).length + paddingWords f pos stack + stack.length := rfl
  obtain ⟨q₁, hrun₁, hpushed₁⟩ := pushed_registers (savedAcross f pos) (Processor.Pushed.refl p)
    (by rw [List.length_nil]; omega) hsaved
  rw [List.append_nil] at hpushed₁
  obtain ⟨q₂, padding, hrun₂, hpadding, hpushed₂⟩ : ∃ (q₂ : Processor) (padding : List Word),
      q₁.runCode m (if paddingWords f pos stack = 1 then codes [.binaryImm .sub rsp 8] else []) = some q₂ ∧
      padding.length = paddingWords f pos stack ∧
      Processor.Pushed [rcx] p (padding ++ ((savedAcross f pos).map p.registers).reverse) q₂ := by
    by_cases hone : paddingWords f pos stack = 1
    · obtain ⟨q₂, w, hrun, hpushed⟩ := pushed_padding hpushed₁
        (by rw [List.length_reverse, List.length_map]; omega)
      refine ⟨q₂, [w], ?_, hone.symm, hpushed⟩
      rw [if_pos hone, Processor.runCode_codes, Processor.run_cons, hrun]
      rfl
    · have hzero : paddingWords f pos stack = 0 := by
        unfold paddingWords at hone ⊢
        omega
      exact ⟨q₁, [], by rw [if_neg hone]; rfl, hzero.symm, hpushed₁⟩
  obtain ⟨q₃, values, hrun₃, hvalues, hpushed₃⟩ := pushed_operands (m := m) (f := f) stack.reverse hpushed₂
    (n := 8 * callWords f pos stack)
    (by simp only [List.length_append, List.length_reverse, List.length_map]; omega) hroom
    fun id hid => hstack id (List.mem_reverse.mp hid)
  refine ⟨q₃, _, ?_, pushedCall_append ?_ hpadding hpushed₃⟩
  · unfold pushesCode
    rw [Processor.runCode_append, Processor.runCode_append, Processor.runCode_codes, hrun₁, Option.bind_some,
      hrun₂, Option.bind_some, hrun₃]
  · rw [List.map_reverse, ← hvalues, List.map_reverse, List.reverse_reverse]

/-- The code before a call pushes the saved registers and the arguments on the stack, and leaves the
address of the helper in `rax` and each argument in its register. -/
theorem run_prepareCode (m : Image) (helper : Helper) (hroom : 8 * callWords f pos stack < 2 ^ 64)
    (hsaved : ∀ s ∈ savedAcross f pos, s ≠ rsp ∧ s ∉ [rcx])
    (hstack : ∀ id ∈ stack, ∃ source, source? f id = some source ∧
      source.Kept [rcx] p (8 * callWords f pos stack))
    (hargs : ∀ arg ∈ args, ∃ source, argumentSource? f arg = some source ∧
      (∀ s, source = .register s → s ∉ Register.arguments) ∧
      (arg ≠ .stack → source.Kept [rcx] p (8 * callWords f pos stack))) :
  ∃ q words, p.runCode m (prepareCode f pos helper args stack) = some q ∧
    PushedCall m f pos stack (rax :: Register.arguments) p words q ∧ q.registers rax = m.helper helper ∧
    ∀ x ∈ args.zip Register.arguments, argumentWord? m f p (q.registers rsp) x.1 = some (q.registers x.2)
  := by
  obtain ⟨q₁, words, hrun₁, hpushed⟩ := run_pushesCode m hroom hsaved hstack
  have hperm := perm_placeArguments args
  have hmem : ∀ x ∈ placeArguments args, x.1 ∈ args ∧ x.2 ∈ Register.arguments :=
    fun x hx => List.of_mem_zip (hperm.mem_iff.mp hx)
  obtain ⟨q₂, hrun₂, hkeeps, hwords⟩ := loaded_arguments (m := m) (f := f) (q := q₁) (placeArguments args)
    ((hperm.map _).nodup_iff.mpr (nodup_map_snd_zip (by decide))) (fun x hx => (hmem x hx).2)
    fun x hx => by
      obtain ⟨source, hsource, hregister, -⟩ := hargs x.1 (hmem x hx).1
      exact ⟨source, hsource, hregister⟩
  have hloads : Processor.Keeps (rax :: Register.arguments) q₁ (q₂.set rax (m.helper helper)) := by
    apply Processor.Keeps.trans _ (Processor.Keeps.set List.mem_cons_self _)
    apply hkeeps.mono
    intro s hs
    obtain ⟨x, hx, rfl⟩ := List.mem_map.mp hs
    exact List.mem_cons_of_mem _ (hmem x hx).2
  have hstacked := (hpushed.mono (show [rcx] ⊆ rax :: Register.arguments by decide)).keeps hloads (by decide)
  refine ⟨q₂.set rax (m.helper helper), words, ?_, { hpushed with toPushed := hstacked }, by simp, ?_⟩
  · unfold prepareCode
    rw [Processor.runCode_append, Processor.runCode_append, hrun₁, Option.bind_some, hrun₂]
    rfl
  · intro x hx
    have hplaced := hperm.mem_iff.mpr hx
    obtain ⟨source, hsource, -, hkept⟩ := hargs x.1 (hmem x hplaced).1
    have hword := hwords x hplaced
    have hne : x.2 ≠ rax := by
      intro h
      have hargument := (hmem x hplaced).2
      rw [h] at hargument
      exact absurd hargument (by decide)
    rw [Processor.registers_set q₂ rax x.2, if_neg hne, ← hword]
    by_cases hstackArg : x.1 = .stack
    · rw [hstackArg]
      change some ((q₂.set rax (m.helper helper)).registers rsp) = some (q₁.registers rsp)
      rw [hloads.registers_eq rsp (by decide)]
    · have hsame : argumentWord? m f p ((q₂.set rax (m.helper helper)).registers rsp) x.1
          = (argumentSource? f x.1).map (·.word m p) := by
        unfold argumentWord?
        split
        · exact absurd ‹_› hstackArg
        · rfl
      rw [hsame, hsource, Option.map_some, Option.map_some,
        (hkept hstackArg).word_eq hpushed.toPushed (Nat.le_of_eq (congrArg (8 * ·) hpushed.length)) (by decide)]

/-! ### After the call -/

/-- What a helper that returns leaves as it was: the stack pointer, the registers that a called
function must keep, and the memory from the stack pointer up to the base of the frame. -/
structure Returned (q q' : Processor) : Prop where
  stack : q'.registers rsp = q.registers rsp
  saved : ∀ s : Register, s.isCalleeSaved = true → q'.registers s = q.registers s
  frame : ∀ a, (a - q.registers rsp).toNat < (q.registers rbp - q.registers rsp).toNat →
    q'.memory a = q.memory a

/-- Words in the frame are as they were. -/
theorem Returned.load_eq {q' : Processor} (h : Returned q q') {i : Nat}
    (hi : 8 * (i + 1) ≤ (q.registers rbp - q.registers rsp).toNat) :
  q'.load (q.registers rsp + .ofNat (8 * i)) = q.load (q.registers rsp + .ofNat (8 * i))
  := by
  apply Processor.load_congr
  intro j hj
  apply h.frame
  have hbase := (q.registers rbp - q.registers rsp).toNat_lt
  have htop := (q.registers rsp).toNat_lt
  have hoffset : (q.registers rsp + .ofNat (8 * i) + .ofNat j - q.registers rsp).toNat = 8 * i + j := by
    simp only [UInt64.toNat_add, UInt64.toNat_sub, UInt64.toNat_ofNat']
    omega
  omega

/-- The stack pointer goes up by what 32 bits with a sign hold of a number of bytes, and nothing
else changes. -/
theorem run_raise (m : Image) (q : Processor) (n : Nat) :
  ∃ r, q.runCode m (if 0 < n then codes [.binaryImm .add rsp (Int32.ofNat n)] else []) = some r ∧
    r.registers rsp = q.registers rsp + (Int32.ofNat n).toInt64.toUInt64 ∧ Processor.Keeps [rsp] q r
  := by
  by_cases hpos : 0 < n
  · rw [if_pos hpos]
    refine ⟨_, rfl, ?_, ?_⟩
    · simp [Processor.combine]
    · constructor
      · intro s hs
        have hne : s ≠ rsp := fun h => hs (h ▸ List.mem_cons_self)
        simp [Processor.combine, hne]
      · rfl
  · obtain rfl : n = 0 := by omega
    have hzero : (Int32.ofNat 0).toInt64.toUInt64 = .ofNat 0 := ofNat_carried (by decide)
    exact ⟨q, rfl, by rw [hzero]; simp, ⟨fun _ _ => rfl, rfl⟩⟩

/-- The code after a call takes back what was pushed before it: the stack pointer and the saved
registers are as before, the others as the call left them. -/
theorem run_restoreCode {q' : Processor} (h : PushedCall m f pos stack changed p words q)
    (hreturned : Returned q q')
    (hroom : 8 * callWords f pos stack ≤ (q.registers rbp - q.registers rsp).toNat)
    (hcarried : 8 * (stack.length + paddingWords f pos stack) < 2 ^ 31)
    (hsaved : rsp ∉ savedAcross f pos) :
  ∃ r, q'.runCode m (restoreCode f pos stack) = some r ∧ r.registers rsp = p.registers rsp ∧
    (∀ s ∈ savedAcross f pos, r.registers s = p.registers s) ∧
    ∀ s, s ∉ savedAcross f pos → s ≠ rsp → r.registers s = q'.registers s
  := by
  have hwords : callWords f pos stack
      = (savedAcross f pos).length + paddingWords f pos stack + stack.length := rfl
  obtain ⟨q₁, hrun₁, hstack, hkeeps⟩ :=
    run_raise m q' (8 * (stack.length + paddingWords f pos stack))
  rw [hreturned.stack, ofNat_carried hcarried] at hstack
  have hbase := (q.registers rbp - q.registers rsp).toNat_lt
  have htop := (q.registers rsp).toNat_lt
  obtain ⟨r, hrun, hrsp, hpopped, hothers⟩ := Processor.run_pops (q := q₁) (savedAcross f pos).reverse
    (fun h => hsaved (List.mem_reverse.mp h)) p.registers fun i s hs => by
      obtain ⟨hi, -⟩ := List.getElem?_eq_some_iff.mp hs
      rw [List.length_reverse] at hi
      have haddress : q₁.registers rsp + .ofNat (8 * i)
          = q.registers rsp + .ofNat (8 * (stack.length + paddingWords f pos stack + i)) := by
        rw [hstack]
        apply UInt64.toNat_inj.mp
        simp only [UInt64.toNat_add, UInt64.toNat_ofNat']
        omega
      rw [haddress, hkeeps.load_eq, hreturned.load_eq (by omega)]
      exact h.word _ _ (h.saved i s hs)
  refine ⟨r, ?_, ?_, ?_, ?_⟩
  · unfold restoreCode
    rw [Processor.runCode_append, hrun₁, Option.bind_some, Processor.runCode_codes, hrun]
  · have hptop := (p.registers rsp).toNat_lt
    rw [hrsp, hstack, h.stack, h.length, List.length_reverse]
    apply UInt64.toNat_inj.mp
    simp only [UInt64.toNat_add, UInt64.toNat_sub, UInt64.toNat_ofNat']
    omega
  · exact fun s hs => hpopped s (List.mem_reverse.mpr hs)
  · intro s hs hne
    rw [hothers s (fun h => hs (List.mem_reverse.mp h)) hne]
    exact hkeeps.registers_eq s fun h => hne (List.mem_singleton.mp h)

/-- The code after a call brings the stack pointer back to where it was before the call exactly if
the values that were passed on the stack, with the padding, take fewer than 2³¹ bytes.  The
instruction that takes them off carries their size in 32 bits with a sign, so a larger size comes
out as another number. -/
theorem restores_stack_iff {q' : Processor} (h : PushedCall m f pos stack changed p words q)
    (hreturned : q'.registers rsp = q.registers rsp) (hroom : 8 * callWords f pos stack < 2 ^ 63)
    (hsaved : rsp ∉ savedAcross f pos) :
  (∃ r, q'.runCode m (restoreCode f pos stack) = some r ∧ r.registers rsp = p.registers rsp) ↔
    8 * (stack.length + paddingWords f pos stack) < 2 ^ 31
  := by
  have hwords : callWords f pos stack
      = (savedAcross f pos).length + paddingWords f pos stack + stack.length := rfl
  have hpassed : 8 * (stack.length + paddingWords f pos stack) < 2 ^ 63 := by omega
  obtain ⟨q₁, hrun₁, hstack, -⟩ := run_raise m q' (8 * (stack.length + paddingWords f pos stack))
  obtain ⟨r, hrun, hrsp, -⟩ := Processor.exists_run_pops (savedAcross f pos).reverse
    (fun h => hsaved (List.mem_reverse.mp h)) q₁
  have hrestore : q'.runCode m (restoreCode f pos stack) = some r := by
    unfold restoreCode
    rw [Processor.runCode_append, hrun₁, Option.bind_some, Processor.runCode_codes, hrun]
  -- The stack pointer is back exactly if what was added is the size of what was passed.
  have hback : r.registers rsp = p.registers rsp ↔
      (Int32.ofNat (8 * (stack.length + paddingWords f pos stack))).toInt64.toUInt64
        = .ofNat (8 * (stack.length + paddingWords f pos stack)) := by
    have htop := (p.registers rsp).toNat_lt
    have hadded := (Int32.ofNat (8 * (stack.length + paddingWords f pos stack))).toInt64.toUInt64.toNat_lt
    rw [hrsp, hstack, hreturned, h.stack, h.length, List.length_reverse, ← UInt64.toNat_inj,
      ← UInt64.toNat_inj]
    simp only [UInt64.toNat_add, UInt64.toNat_sub, UInt64.toNat_ofNat']
    omega
  rw [← ofNat_carried_iff hpassed, ← hback]
  constructor
  · rintro ⟨r', hrun', hr'⟩
    rw [hrestore] at hrun'
    cases hrun'
    exact hr'
  · intro hr
    exact ⟨r, hrestore, hr⟩

end StackCompiler.Machine
