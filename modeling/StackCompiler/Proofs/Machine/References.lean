import Mathlib.Data.List.Basic
import StackCompiler.Proofs.Machine.Calls
import StackCompiler.Proofs.Machine.Fragments

/-!
# References of code

The code of a function refers to helpers and to strings.  `references` lists, for an instruction,
the helpers that it calls and the strings that it loads, in the order in which it does so.  The code
of an instruction refers to just these, in this order, and calls each helper right after it has
loaded the helper's address.
-/

namespace StackCompiler.Machine

open IR (Inst OperandId BinOp)
open Register (rax rcx rsp rbp)

/-- What code refers to by an address that the loader fills in. -/
inductive Reference where
  | helper (helper : Helper)
  | string (text : String)
  deriving DecidableEq, Repr

/-- The string that is referred to. -/
def Reference.text? : Reference → Option String
  | helper _ => none
  | string text => some text

/-- What a fragment refers to. -/
def Fragment.reference? : Fragment → Option Reference
  | .item _ => none
  | .helperAddress _ helper => some (.helper helper)
  | .stringAddress _ text => some (.string text)

/-! ### References of instructions -/

section

variable (f : IR.Function)

/-- What it takes to load an operand. -/
def loadReferences (id : OperandId) : List Reference :=
  match (f.operand id).kind with
  | .const (.string text) => [.string text]
  | _ => []

/-- What it takes to call a helper with values, in the order in which they are loaded. -/
def callReferences (helper : Helper) (values : List OperandId) : List Reference :=
  values.flatMap (loadReferences f) ++ [.helper helper]

/-- What it takes to read any operand. -/
def readReferences (id : OperandId) : List Reference :=
  match (f.operand id).kind with
  | .global _ => [.helper .readGlobal]
  | .contents _ => [.helper .readReference]
  | .function _ => [.helper .readFunction]
  | _ => loadReferences f id

/-- What it takes to write an operand. -/
def writeReferences (id : OperandId) : List Reference :=
  match (f.operand id).kind with
  | .global _ => [.helper .writeGlobal]
  | .contents _ => [.helper .writeReference]
  | _ => []

/-- The helper of a request. -/
def requestHelper : IR.HelperCall → Helper
  | .collect => .garbageCollect
  | .allocRecord => .allocRecord
  | .fieldLoad _ _ => .fieldLoad
  | .fieldStore _ _ _ => .fieldStore
  | .indexLoad _ _ => .indexLoad
  | .indexStore _ _ _ => .indexStore
  | .throwUninitialized _ => .throwUninitialized

/-- What it takes to compute a binary operation.  Inline code loads the second operand first. -/
def binaryReferences (lhs rhs : OperandId) : BinOp → List Reference
  | .add => callReferences f .add [lhs, rhs]
  | .eq => callReferences f .equals [lhs, rhs]
  | _ => loadReferences f rhs ++ loadReferences f lhs

/-- What an instruction refers to, in order. -/
def references : Inst → List Reference
  | .assign dest src =>
    if inSameRegister f dest src then [] else readReferences f src ++ writeReferences f dest
  | .store dest src | .unary _ dest src => loadReferences f src ++ writeReferences f dest
  | .binary op dest lhs rhs => binaryReferences f lhs rhs op ++ writeReferences f dest
  | .call closure args => callReferences f .callFunction (args.reverse ++ [closure])
  | .allocClosure function refs => callReferences f .allocClosure (refs.reverse ++ [function])
  | .ret value | .condJump value _ => loadReferences f value
  | .helper request => callReferences f (requestHelper request) request.uses
  | .assertion kind arg => callReferences f (assertHelper kind) [arg]
  | .fork src dest1 dest2 => loadReferences f src ++ writeReferences f dest1 ++ writeReferences f dest2
  | .forceLoad _ | .label _ | .jump _ | .shortJump _ => []

end

/-! ### What emitted code is -/

section

variable {f : IR.Function} {pos : Nat}

/-- If two computations, one after the other, succeed, the first does, and then the second. -/
theorem bind_eq_ok {ε α β : Type} {a : Except ε α} {g : α → Except ε β} {y : β} (h : (a >>= g) = .ok y) :
  ∃ x, a = .ok x ∧ g x = .ok y
  := by
  cases a with
  | error e => cases h
  | ok x => exact ⟨x, rfl, h⟩

/-- Every member of a list is paired with something by a list that is at least as long. -/
theorem exists_mem_zip {α β : Type} {xs : List α} {ys : List β} (h : xs.length ≤ ys.length) {x : α}
    (hx : x ∈ xs) :
  ∃ y, (x, y) ∈ xs.zip ys
  := by
  obtain ⟨i, hi, rfl⟩ := List.mem_iff_getElem.mp hx
  refine ⟨ys[i], ?_⟩
  rw [← List.getElem_zip (h := by rw [List.length_zip]; omega)]
  exact List.getElem_mem _

/-- If code is emitted for all members of a list, it is emitted for each of them. -/
theorem exists_of_emitAll {α : Type} {emit : α → Emit} {xs : List α} {code : List Fragment}
    (h : emitAll emit xs = .ok code) :
  ∀ x ∈ xs, ∃ c, emit x = .ok c
  := by
  have hall : ∀ (xs : List α) (cs : List (List Fragment)), xs.mapM emit = .ok cs →
      ∀ x ∈ xs, ∃ c, emit x = .ok c := by
    intro xs
    induction xs with
    | nil => intro cs _ x hx; cases hx
    | cons x xs ih =>
      intro cs hcs
      rw [List.mapM_cons] at hcs
      cases hx : emit x with
      | error e =>
        rw [hx] at hcs
        cases hcs
      | ok c =>
        cases hxs : xs.mapM emit with
        | error e =>
          rw [hx, hxs] at hcs
          cases hcs
        | ok cs' =>
          rintro y (_ | ⟨_, hy⟩)
          · exact ⟨c, hx⟩
          · exact ih cs' hxs y hy
  unfold emitAll at h
  cases hxs : xs.mapM emit with
  | error e =>
    rw [hxs] at h
    cases h
  | ok cs => exact hall xs cs hxs

/-- An operand that can be loaded has a source. -/
theorem loadOperand_eq_ok {dst : Register} {id : OperandId} {code : List Fragment}
    (h : loadOperand f dst id = .ok code) :
  ∃ source, source? f id = some source ∧ code = source.code dst
  := by
  cases hsource : source? f id with
  | some source =>
    rw [loadOperand_of_source hsource] at h
    exact ⟨source, rfl, (Except.ok.inj h).symm⟩
  | none =>
    unfold source? at hsource
    unfold loadOperand refuseOperand at h
    dsimp only at hsource h
    generalize (f.operand id).kind = kind at hsource h
    generalize (f.operand id).register = register at hsource h
    cases kind <;> cases register <;> first | (cases hsource; done) | cases h

/-- If the code that loads an argument is emitted, the argument has a source, and the code loads
this source. -/
theorem loadArgument_eq_ok {dst : Register} {arg : Argument} {code : List Fragment}
    (h : loadArgument f dst arg = .ok code) :
  ∃ source, argumentSource? f arg = some source ∧ code = source.code dst
  := by
  cases arg with
  | value id => exact loadOperand_eq_ok h
  | _ =>
    cases h
    exact ⟨_, rfl, rfl⟩

/-- A call with code has sources for all that it passes. -/
theorem callHelper_eq_ok {helper : Helper} {args : List Argument} {stack : List OperandId}
    {code : List Fragment} (h : callHelper f pos helper args stack = .ok code) :
  args.length ≤ Register.arguments.length ∧
    (∀ arg ∈ args, ∃ source, argumentSource? f arg = some source) ∧
    (∀ id ∈ stack, ∃ source, source? f id = some source) ∧
    code = prepareCode f pos helper args stack ++ .code (.call rax) :: restoreCode f pos stack
  := by
  have hcount : args.length ≤ Register.arguments.length := by
    by_contra hnot
    unfold callHelper at h
    rw [if_pos (Nat.lt_of_not_le hnot)] at h
    cases h
  have hparts : ∃ pushed loaded, emitAll (pushOperand f) stack.reverse = .ok pushed ∧
      emitAll (fun (placed : Argument × Register) => loadArgument f placed.2 placed.1)
        (placeArguments args) = .ok loaded := by
    unfold callHelper at h
    rw [if_neg (Nat.not_lt.mpr hcount)] at h
    obtain ⟨pushed, hpushed, h⟩ := bind_eq_ok h
    obtain ⟨loaded, hloaded, -⟩ := bind_eq_ok h
    exact ⟨pushed, loaded, hpushed, hloaded⟩
  obtain ⟨pushed, loaded, hpushed, hloaded⟩ := hparts
  have hargs : ∀ arg ∈ args, ∃ source, argumentSource? f arg = some source := by
    intro arg harg
    obtain ⟨dst, hmem⟩ := exists_mem_zip hcount harg
    obtain ⟨c, hc⟩ := exists_of_emitAll hloaded _ ((perm_placeArguments args).mem_iff.mpr hmem)
    obtain ⟨source, hsource, -⟩ := loadArgument_eq_ok hc
    exact ⟨source, hsource⟩
  have hstack : ∀ id ∈ stack, ∃ source, source? f id = some source := by
    intro id hid
    obtain ⟨c, hc⟩ := exists_of_emitAll hpushed id (List.mem_reverse.mpr hid)
    obtain ⟨x, hx, -⟩ := bind_eq_ok hc
    obtain ⟨source, hsource, -⟩ := loadOperand_eq_ok hx
    exact ⟨source, hsource⟩
  refine ⟨hcount, hargs, hstack, ?_⟩
  rw [callHelper_eq hcount hargs hstack] at h
  exact (Except.ok.inj h).symm

/-! ### References of code -/

/-- Code refers to the given things in this order, and calls each helper right after it has loaded
the helper's address. -/
structure Refers (code : List Fragment) (refs : List Reference) : Prop where
  references_eq : code.filterMap Fragment.reference? = refs
  calls : ∀ before after dst helper, code = before ++ .helperAddress dst helper :: after →
    dst = rax ∧ ∃ rest, after = .code (.call rax) :: rest

namespace Refers

variable {code rest : List Fragment} {refs refs' : List Reference}

/-- Code followed by other code refers to what the one refers to, and then to what the other
refers to. -/
theorem append (h : Refers code refs) (h' : Refers rest refs') :
  Refers (code ++ rest) (refs ++ refs')
  := by
  refine ⟨?_, fun before after dst helper heq => ?_⟩
  · rw [List.filterMap_append, h.references_eq, h'.references_eq]
  · rcases List.append_eq_append_iff.mp heq with ⟨middle, -, hrest⟩ | ⟨middle, hcode, hmiddle⟩
    · exact h'.calls middle after dst helper hrest
    · cases middle with
      | nil => exact h'.calls [] after dst helper hmiddle.symm
      | cons x middle =>
        cases hmiddle
        obtain ⟨hdst, tail, rfl⟩ := h.calls before middle dst helper hcode
        exact ⟨hdst, tail ++ rest, rfl⟩

theorem append_plain (h : Refers code refs) (h' : Refers rest []) :
  Refers (code ++ rest) refs
  := by
  have happend := h.append h'
  rwa [List.append_nil] at happend

theorem nil :
  Refers [] []
  := ⟨rfl, by simp⟩

/-- Code without references. -/
theorem of_forall (h : ∀ x ∈ code, x.reference? = none) :
  Refers code []
  := by
  refine ⟨List.filterMap_eq_nil_iff.mpr h, fun before after dst helper heq => ?_⟩
  have hnone := h (.helperAddress dst helper) (by rw [heq]; simp)
  cases hnone

/-- Plain instructions refer to nothing. -/
theorem codes (insts : List Instruction) :
  Refers (codes insts) []
  := by
  apply of_forall
  intro x hx
  obtain ⟨inst, -, rfl⟩ := List.mem_map.mp hx
  rfl

/-- Plain instructions that are there under a condition refer to nothing. -/
theorem ite_codes (c : Prop) [Decidable c] (insts : List Instruction) :
  Refers (if c then Machine.codes insts else []) []
  := by
  split
  · exact codes insts
  · exact nil

/-- A move between registers refers to nothing. -/
theorem moveTo (dst src : Register) :
  Refers (moveTo dst src) []
  := by
  unfold Machine.moveTo
  split
  · exact nil
  · exact codes _

theorem item {i : Item} :
  Refers [.item i] []
  := of_forall (by simp [Fragment.reference?])

/-- The code of the members of a list refers to what that of each member refers to, in their
order. -/
theorem flatMap {α : Type} {xs : List α} {g : α → List Fragment} {r : α → List Reference}
    (h : ∀ x ∈ xs, Refers (g x) (r x)) :
  Refers (xs.flatMap g) (xs.flatMap r)
  := by
  induction xs with
  | nil => exact nil
  | cons x xs ih =>
    rw [List.flatMap_cons, List.flatMap_cons]
    exact (h x List.mem_cons_self).append (ih fun y hy => h y (List.mem_cons_of_mem _ hy))

end Refers

/-- What a source refers to. -/
def Source.references : Source → List Reference
  | .literal (.string text) => [.string text]
  | _ => []

/-- The code that loads a source refers to what the source refers to. -/
theorem Source.refers_code (source : Source) (dst : Register) :
  Refers (source.code dst) source.references
  := by
  cases source with
  | register r => exact .moveTo dst r
  | slot disp | entry base n | number n => exact .codes _
  | literal c =>
    cases c with
    | string text =>
      refine ⟨rfl, fun before after dst helper heq => ?_⟩
      cases before with
      | nil => cases heq
      | cons x before =>
        have hnil := (List.cons.inj heq).2
        simp at hnil
    | _ => exact .codes _

/-- The source of an operand refers to what it takes to load the operand. -/
theorem references_of_source {id : OperandId} {source : Source} (h : source? f id = some source) :
  source.references = loadReferences f id
  := by
  unfold source? at h
  unfold loadReferences
  dsimp only at h
  generalize (f.operand id).kind = kind at h ⊢
  generalize (f.operand id).register = register at h ⊢
  cases kind with
  | const c =>
    cases h
    cases c <;> rfl
  | _ =>
    cases register <;> cases h <;> rfl

/-- The code that loads an operand refers to what it takes to load it. -/
theorem refers_loadOperand {dst : Register} {id : OperandId} {code : List Fragment}
    (h : loadOperand f dst id = .ok code) :
  Refers code (loadReferences f id)
  := by
  obtain ⟨source, hsource, rfl⟩ := loadOperand_eq_ok h
  rw [← references_of_source hsource]
  exact source.refers_code dst

/-- What it takes to load an argument. -/
def argumentReferences (f : IR.Function) : Argument → List Reference
  | .value id => loadReferences f id
  | _ => []

/-- The source of an argument refers to what it takes to load the argument. -/
theorem references_of_argumentSource {arg : Argument} {source : Source}
    (h : argumentSource? f arg = some source) :
  source.references = argumentReferences f arg
  := by
  cases arg with
  | value id => exact references_of_source h
  | _ =>
    cases h
    rfl

/-- The argument that goes last refers to nothing. -/
theorem flatMap_placeArguments {args : List Argument} (h : args.length ≤ Register.arguments.length) :
  (placeArguments args).flatMap (fun placed => argumentReferences f placed.1)
    = args.flatMap (argumentReferences f)
  := by
  have hsplit : ∀ placed : List (Argument × Register),
      (placed.filter (·.1 ≠ .result) ++ placed.filter (·.1 = .result)).flatMap
          (fun placed => argumentReferences f placed.1)
        = (placed.map (·.1)).flatMap (argumentReferences f) := by
    intro placed
    have hlast : (placed.filter (·.1 = .result)).flatMap (fun placed => argumentReferences f placed.1)
        = [] := by
      rw [List.flatMap_eq_nil_iff]
      intro x hx
      rw [of_decide_eq_true (List.mem_filter.mp hx).2]
      rfl
    rw [List.flatMap_append, hlast, List.append_nil]
    clear hlast
    induction placed with
    | nil => rfl
    | cons x placed ih =>
      by_cases hx : x.1 = .result
      · rw [List.filter_cons_of_neg (by simp [hx]), ih, List.map_cons, List.flatMap_cons, hx]
        rfl
      · rw [List.filter_cons_of_pos (by simp [hx]), List.flatMap_cons, ih, List.map_cons, List.flatMap_cons]
  unfold placeArguments
  dsimp only
  rw [hsplit, List.map_fst_zip h]

/-- The code of a call refers to what it takes to push operands, from the last to the first, then
to what it takes to load the arguments, and then to the helper. -/
theorem refers_callHelper {helper : Helper} {args : List Argument} {stack : List OperandId}
    {code : List Fragment} (h : callHelper f pos helper args stack = .ok code) :
  Refers code (stack.reverse.flatMap (loadReferences f) ++ args.flatMap (argumentReferences f)
    ++ [.helper helper])
  := by
  obtain ⟨hcount, hargs, hstack, rfl⟩ := callHelper_eq_ok h
  have hpushed : Refers (stack.reverse.flatMap (pushCode f)) (stack.reverse.flatMap (loadReferences f)) := by
    apply Refers.flatMap
    intro id hid
    obtain ⟨source, hsource⟩ := hstack id (List.mem_reverse.mp hid)
    unfold pushCode
    rw [hsource, ← references_of_source hsource]
    exact (source.refers_code rcx).append_plain (.codes _)
  have hloaded : Refers ((placeArguments args).flatMap (argumentCode f))
      (args.flatMap (argumentReferences f)) := by
    rw [← flatMap_placeArguments hcount]
    apply Refers.flatMap
    intro placed hplaced
    obtain ⟨source, hsource⟩ :=
      hargs placed.1 (List.of_mem_zip ((perm_placeArguments args).mem_iff.mp hplaced)).1
    unfold argumentCode
    rw [hsource, ← references_of_argumentSource hsource]
    exact source.refers_code placed.2
  have hcall : Refers [.helperAddress rax helper, .code (.call rax)] [.helper helper] := by
    refine ⟨rfl, fun before after dst helper' heq => ?_⟩
    rcases before with - | ⟨x, - | ⟨y, before⟩⟩
    · cases heq
      exact ⟨rfl, [], rfl⟩
    · cases heq
    · have hnil := (List.cons.inj (List.cons.inj heq).2).2
      simp at hnil
  have hpushes : Refers (pushesCode f pos stack) (stack.reverse.flatMap (loadReferences f)) :=
    ((Refers.codes _).append (.ite_codes _ _)).append hpushed
  have hrestore : Refers (restoreCode f pos stack) [] := (Refers.ite_codes _ _).append (.codes _)
  have hall := ((hpushes.append hloaded).append hcall).append_plain hrestore
  simpa [prepareCode] using hall

/-! ### References of emitted code -/

/-- If an attempt to emit code succeeds, the code refers to the given things. -/
def EmitsReferences (e : Emit) (refs : List Reference) : Prop := ∀ code, e = .ok code → Refers code refs

theorem EmitsReferences.append {a b : Emit} {r s : List Reference} (ha : EmitsReferences a r)
    (hb : EmitsReferences b s) :
  EmitsReferences (do return (← a) ++ (← b)) (r ++ s)
  := by
  intro code hcode
  obtain ⟨x, y, hx, hy, rfl⟩ := append_eq_ok hcode
  exact (ha x hx).append (hb y hy)

theorem EmitsReferences.append_codes {a : Emit} {r : List Reference} (ha : EmitsReferences a r)
    {rest : List Fragment} (hrest : Refers rest []) :
  EmitsReferences (do return (← a) ++ rest) r
  := by
  intro code hcode
  obtain ⟨x, hx, hcode⟩ := bind_eq_ok hcode
  cases hcode
  exact (ha x hx).append_plain hrest

/-- The code emitted to load an operand refers to what it takes to load it. -/
theorem emitsReferences_load (dst : Register) (id : OperandId) :
  EmitsReferences (loadOperand f dst id) (loadReferences f id)
  := fun _ => refers_loadOperand

/-- The code emitted for a call refers to what it takes to load its values, and then to the
helper. -/
theorem emitsReferences_call (helper : Helper) (args : List Argument) (stack values : List OperandId)
    (h : args.flatMap (argumentReferences f) = values.flatMap (loadReferences f)) :
  EmitsReferences (callHelper f pos helper args stack) (callReferences f helper (stack.reverse ++ values))
  := by
  intro code hcode
  unfold callReferences
  rw [List.flatMap_append, ← h]
  exact refers_callHelper hcode

/-- The code emitted to read an operand refers to what it takes to read it. -/
theorem emitsReferences_read (id : OperandId) :
  EmitsReferences (readOperand f pos id) (readReferences f id)
  := by
  unfold readOperand readReferences
  cases (f.operand id).kind with
  | global n | contents n | function n => exact emitsReferences_call _ _ [] [] rfl
  | _ => exact emitsReferences_load rax id

/-- The code emitted to write an operand refers to what it takes to write it. -/
theorem emitsReferences_write (id : OperandId) :
  EmitsReferences (writeOperand f pos id) (writeReferences f id)
  := by
  unfold writeOperand writeReferences
  dsimp only
  cases (f.operand id).kind with
  | temp n | var n =>
    cases (f.operand id).register with
    | none =>
      rintro _ ⟨⟩
      exact .codes _
    | some r =>
      rintro _ ⟨⟩
      exact .moveTo r rax
  | global n | contents n => exact emitsReferences_call _ _ [] [] rfl
  | _ =>
    rintro _ ⟨⟩

/-- The code emitted for a binary operation refers to what it takes to compute it. -/
theorem emitsReferences_binary (op : BinOp) (lhs rhs : OperandId) :
  EmitsReferences (binaryCode f pos op lhs rhs) (binaryReferences f lhs rhs op)
  := by
  cases op with
  | add | eq => exact emitsReferences_call _ _ [] [lhs, rhs] (by simp [argumentReferences])
  | _ =>
    intro code hcode
    obtain ⟨x, hx, hcode⟩ := bind_eq_ok hcode
    obtain ⟨y, hy, hcode⟩ := bind_eq_ok hcode
    cases hcode
    exact ((refers_loadOperand hx).append (refers_loadOperand hy)).append_plain (.codes _)

/-- The code of an instruction refers to what the instruction does. -/
theorem emitsReferences_instCode (inst : Inst) :
  EmitsReferences (instCode f pos inst) (references f inst)
  := by
  cases inst with
  | assign dest src =>
    simp only [instCode, references]
    split
    · rintro _ ⟨⟩
      exact .nil
    · exact (emitsReferences_read src).append (emitsReferences_write dest)
  | store dest src => exact (emitsReferences_load rax src).append (emitsReferences_write dest)
  | forceLoad x =>
    simp only [instCode, references]
    split
    · rintro _ ⟨⟩
      exact .codes _
    · rintro _ ⟨⟩
      exact .nil
  | binary op dest lhs rhs => exact (emitsReferences_binary op lhs rhs).append (emitsReferences_write dest)
  | unary op dest src =>
    intro code hcode
    obtain ⟨x, hx, hcode⟩ := bind_eq_ok hcode
    obtain ⟨y, hy, hcode⟩ := bind_eq_ok hcode
    cases hcode
    exact ((refers_loadOperand hx).append_plain (.codes _)).append (emitsReferences_write dest y hy)
  | call closure args => exact emitsReferences_call _ _ args [closure] (by simp [argumentReferences])
  | allocClosure function refs => exact emitsReferences_call _ _ refs [function] (by simp [argumentReferences])
  | ret value => exact (emitsReferences_load rax value).append_codes (.codes _)
  | label l | jump l | shortJump l =>
    rintro _ ⟨⟩
    exact .item
  | condJump cond l =>
    intro code hcode
    obtain ⟨x, hx, hcode⟩ := bind_eq_ok hcode
    cases hcode
    exact ((refers_loadOperand hx).append_plain (.codes _)).append_plain .item
  | helper request =>
    have hcall : ∀ helper args,
        args.flatMap (argumentReferences f) = request.uses.flatMap (loadReferences f) →
        EmitsReferences (callHelper f pos helper args) (callReferences f helper request.uses) :=
      fun helper args => emitsReferences_call helper args [] request.uses
    cases request <;> simp only [instCode, requestCode] <;> apply hcall <;>
      simp [argumentReferences, IR.HelperCall.uses]
  | assertion kind arg => exact emitsReferences_call _ _ [] [arg] (by simp [argumentReferences])
  | fork src dest1 dest2 =>
    intro code hcode
    obtain ⟨x, hx, hcode⟩ := bind_eq_ok hcode
    obtain ⟨y, hy, hcode⟩ := bind_eq_ok hcode
    obtain ⟨z, hz, hcode⟩ := bind_eq_ok hcode
    cases hcode
    exact ((refers_loadOperand hx).append (emitsReferences_write dest1 y hy)).append
      (emitsReferences_write dest2 z hz)

/-- What comes after the code of the instructions. -/
def closingCode (f : IR.Function) : List Fragment :=
  if endsInReturn f then [] else codes [.setTo rax Word.noneWord] ++ exitCode

/-- A function with code has code for every instruction. -/
theorem functionCode_eq_ok {fragments : List Fragment} (h : functionCode f = .ok fragments) :
  (∀ entry ∈ f.live, instCode f entry.1 entry.2 = .ok (codeOf f entry)) ∧
    fragments = entryCode (Frame.size f.tempCount) ++ f.live.flatMap (block f) ++ closingCode f
  := by
  obtain ⟨body, hbody, hfragments⟩ := bind_eq_ok h
  cases hfragments
  have hcode : ∀ entry ∈ f.live, instCode f entry.1 entry.2 = .ok (codeOf f entry) := by
    intro entry hentry
    obtain ⟨c, hc⟩ := exists_of_emitAll hbody entry hentry
    obtain ⟨d, hd, -⟩ := bind_eq_ok hc
    unfold codeOf
    rw [hd]
  refine ⟨hcode, ?_⟩
  have hblocks : emitAll (commentedCode f) f.live = .ok (f.live.flatMap (block f)) := by
    apply emitAll_of_forall
    intro entry hentry
    unfold commentedCode
    dsimp only
    rw [hcode entry hentry]
    rfl
  rw [hbody] at hblocks
  cases hblocks
  rfl

/-- The code of a function refers to what its instructions do, one after the other. -/
theorem refers_functionCode {fragments : List Fragment} (h : functionCode f = .ok fragments) :
  Refers fragments (f.live.flatMap fun entry => references f entry.2)
  := by
  obtain ⟨hcode, rfl⟩ := functionCode_eq_ok h
  have hblocks : Refers (f.live.flatMap (block f)) (f.live.flatMap fun entry => references f entry.2) := by
    apply Refers.flatMap
    intro entry hentry
    exact Refers.item.append (emitsReferences_instCode entry.2 _ (hcode entry hentry))
  have hclosing : Refers (closingCode f) [] := by
    unfold closingCode
    split
    · exact .nil
    · exact (Refers.codes _).append (.codes _)
  exact ((Refers.codes _).append hblocks).append_plain hclosing

end

end StackCompiler.Machine
