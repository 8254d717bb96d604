import Mathlib.Data.Nat.Find
import StackCompiler.Proofs.Lowering.ControlFlow

/-!
# What lowering accepts

A bytecode function is `Acceptable` when a scan of its instructions with a counter for the depth
of the stack finds nothing wrong: operands are there and in range, no label is defined twice, the
stack holds what each instruction pops, and every jump has a label.  `Refusal` gives the error of
an instruction.  Lowering accepts exactly the acceptable functions, and of any other one it reports
the first instruction that is refused, or the first jump without a label if none is.
-/

namespace StackCompiler

/-! ### Conditions on bytecode -/

namespace Bytecode

/-- What the operand of an instruction stands for. -/
inductive OperandRole where
  /-- An index into a table of a length, under the name that errors give to the table. -/
  | index (table : String) (length : Nat)
  | count
  | label
  deriving DecidableEq, Repr

namespace OperandRole

/-- Whether a number can stand for that. -/
def Admits : OperandRole → Int → Prop
  | index _ length, n => 0 ≤ n ∧ n < length
  | count, n | label, n => 0 ≤ n

/-- The error for a number that cannot stand for that, in an instruction of an opcode. -/
def refuse (op : Opcode) (n : Int) : OperandRole → CompileError
  | index table _ => .badIndex table n
  | count => .invalidOperation s!"`{op.mnemonic}` with negative count {n}"
  | label => .badIndex "label" n

end OperandRole

/-- What the operand of an opcode stands for; none for an opcode that needs no operand. -/
def Opcode.role? (f : Function) : Opcode → Option OperandRole
  | loadConst => some (.index "constant" f.constants.length)
  | loadFunc => some (.index "function" f.functions.length)
  | loadLocal | storeLocal => some (.index "local" f.localVars.length)
  | loadGlobal | storeGlobal => some (.index "global" f.names.length)
  | pushRef | loadRef | storeRef | throwUninitialized =>
    some (.index "reference" (f.localRefVars ++ f.freeVars).length)
  | fieldLoad | fieldStore => some (.index "name" f.names.length)
  | allocClosure | call => some .count
  | label | goto | branch => some .label
  | _ => none

/-- How many values an opcode pushes. -/
def Opcode.pushes : Opcode → Nat
  | loadConst | loadFunc | loadLocal | loadGlobal | pushRef | loadRef | allocRecord | fieldLoad
  | indexLoad | allocClosure | call | add | sub | mul | div | neg | gt | geq | eq | and | or | not => 1
  | dup | swap => 2
  | _ => 0

namespace Instruction

/-- How many values an instruction pops. -/
def pops (i : Instruction) : Nat :=
  match i.op with
  | .storeLocal | .storeGlobal | .storeRef | .fieldLoad | .ret | .neg | .not | .branch | .dup | .pop => 1
  | .fieldStore | .indexLoad | .add | .sub | .mul | .div | .gt | .geq | .eq | .and | .or | .swap => 2
  | .indexStore => 3
  | .allocClosure | .call => 1 + i.argument
  | _ => 0

/-- The label that an instruction defines. -/
def defines? (i : Instruction) : Option Nat := if i.op = .label then some i.argument else none

/-- The label that an instruction may jump to. -/
def jumps? (i : Instruction) : Option Nat :=
  if i.op = .goto ∨ i.op = .branch then some i.argument else none

/-- The operand is there if it is needed, and can stand for what it has to. -/
def InOrder (f : Function) (i : Instruction) : Prop :=
  ∀ role, i.op.role? f = some role → ∃ n, i.operand = some n ∧ role.Admits n.toInt

end Instruction

namespace Function

/-- The depth of the stack before an instruction. -/
def depth (f : Function) (k : Nat) : Int :=
  (f.instructions.take k).foldl (fun depth i => depth - i.pops + i.op.pushes) 0

/-- A label is defined before an instruction. -/
def Defines (f : Function) (k l : Nat) : Prop :=
  ∃ j i, j < k ∧ f.instructions[j]? = some i ∧ i.defines? = some l

/-- A function in which a scan of the instructions finds nothing wrong. -/
structure Acceptable (f : Function) : Prop where
  operand : ∀ (k : Nat) (i : Instruction), f.instructions[k]? = some i → i.InOrder f
  once : ∀ (k : Nat) (i : Instruction) (l : Nat), f.instructions[k]? = some i → i.defines? = some l → ¬ f.Defines k l
  depth : ∀ (k : Nat) (i : Instruction), f.instructions[k]? = some i → i.pops ≤ f.depth k
  target : ∀ (k : Nat) (i : Instruction) (l : Nat), f.instructions[k]? = some i → i.jumps? = some l →
    f.Defines f.instructions.length l

/-- What is wrong with the instruction at an index, as far as can be told from those before it. -/
inductive Refusal (f : Function) (k : Nat) (i : Instruction) : CompileError → Prop where
  | missing {role : OperandRole} (hrole : i.op.role? f = some role) (hnone : i.operand = none) :
    Refusal f k i
      (.invalidOperation s!"`{i.op.mnemonic}` at bytecode instruction {k} has no operand")
  | outside {role : OperandRole} {n : Int32} (hrole : i.op.role? f = some role)
    (hn : i.operand = some n) (hout : ¬ role.Admits n.toInt) :
    Refusal f k i (role.refuse i.op n.toInt)
  | repeated {l : Nat} (horder : i.InOrder f) (hl : i.defines? = some l) (hdefined : f.Defines k l) :
    Refusal f k i (.invalidOperation s!"label {l} defined twice")
  | underflow (horder : i.InOrder f) (hdepth : f.depth k < i.pops) :
    Refusal f k i (.stackUnderflow k i.op.mnemonic)

/-- An error is that of the instruction at an index. -/
def RefusedAt (f : Function) (k : Nat) (e : CompileError) : Prop :=
  ∃ i, f.instructions[k]? = some i ∧ f.Refusal k i e

/-- The instruction at an index is a jump to a label that is defined nowhere. -/
def LostAt (f : Function) (k l : Nat) : Prop :=
  ∃ i, f.instructions[k]? = some i ∧ i.jumps? = some l ∧ ¬ f.Defines f.instructions.length l

/-- An error is that of the first instruction that is refused or, if none is, that of the first
jump without a label. -/
def Reports (f : Function) (e : CompileError) : Prop :=
  (∃ k, f.RefusedAt k e ∧ ∀ j e', j < k → ¬ f.RefusedAt j e') ∨
  (∀ k e', ¬ f.RefusedAt k e') ∧
    ∃ k l, f.LostAt k l ∧ (∀ j l', j < k → ¬ f.LostAt j l') ∧ e = .unknownLabel l

variable {f : Function}

/-- The depth after an instruction is that before it, without what the instruction pops and with
what it pushes. -/
theorem depth_succ {k : Nat} {i : Instruction} (hi : f.instructions[k]? = some i) :
  f.depth (k + 1) = f.depth k - i.pops + i.op.pushes
  := by
  unfold depth
  rw [List.take_add_one, hi, List.foldl_append]
  rfl

/-- A label is defined up to an instruction if it is defined before it or there. -/
theorem defines_succ {k l : Nat} {i : Instruction} (hi : f.instructions[k]? = some i) :
  f.Defines (k + 1) l ↔ f.Defines k l ∨ i.defines? = some l
  := by
  constructor
  · rintro ⟨j, i', hj, hi', hl⟩
    rcases Nat.lt_or_eq_of_le (Nat.le_of_lt_succ hj) with hlt | rfl
    · exact .inl ⟨j, i', hlt, hi', hl⟩
    · rw [hi] at hi'
      cases hi'
      exact .inr hl
  · rintro (⟨j, i', hj, hi', hl⟩ | hl)
    · exact ⟨j, i', Nat.lt_succ_of_lt hj, hi', hl⟩
    · exact ⟨k, i, Nat.lt_succ_self k, hi, hl⟩

/-- The operand of an instruction that is not refused is in order. -/
theorem inOrder_of_not_refusal {k : Nat} {i : Instruction} (h : ∀ e, ¬ f.Refusal k i e) :
  i.InOrder f
  := by
  intro role hrole
  cases hn : i.operand with
  | none => exact absurd (.missing hrole hn) (h _)
  | some n =>
    by_cases hadmits : role.Admits n.toInt
    · exact ⟨n, rfl, hadmits⟩
    · exact absurd (.outside hrole hn hadmits) (h _)

/-- A function is acceptable if no instruction is refused and every jump has a label. -/
theorem acceptable_iff :
  f.Acceptable ↔ (∀ k e, ¬ f.RefusedAt k e) ∧ ∀ k l, ¬ f.LostAt k l
  := by
  constructor
  · intro h
    constructor
    · rintro k e ⟨i, hi, hrefusal⟩
      cases hrefusal with
      | missing hrole hnone =>
        obtain ⟨n, hn, -⟩ := h.operand k i hi _ hrole
        rw [hnone] at hn
        cases hn
      | outside hrole hn hout =>
        obtain ⟨n, hn', hadmits⟩ := h.operand k i hi _ hrole
        rw [hn] at hn'
        cases hn'
        exact hout hadmits
      | repeated horder hl hdefined => exact h.once k i _ hi hl hdefined
      | underflow horder hdepth => exact Int.not_lt.mpr (h.depth k i hi) hdepth
    · rintro k l ⟨i, hi, hl, hnot⟩
      exact hnot (h.target k i l hi hl)
  · rintro ⟨hrefused, hlost⟩
    have horder : ∀ (k : Nat) (i : Instruction), f.instructions[k]? = some i → i.InOrder f :=
      fun k i hi => inOrder_of_not_refusal fun e he => hrefused k e ⟨i, hi, he⟩
    refine ⟨horder, fun k i l hi hl hdefined => ?_, fun k i hi => ?_, fun k i l hi hl => ?_⟩
    · exact hrefused k _ ⟨i, hi, .repeated (horder k i hi) hl hdefined⟩
    · apply Int.not_lt.mp
      exact fun hdepth => hrefused k _ ⟨i, hi, .underflow (horder k i hi) hdepth⟩
    · by_contra hnot
      exact hlost k l ⟨i, hi, hl, hnot⟩

end Function

end Bytecode

open Bytecode (Instruction Opcode OperandRole)

namespace IR

/-! ### Checks of operands -/

namespace Operation

/-- How many values an operation pops. -/
def pops : Operation → Nat
  | store _ | fieldLoad _ | ret | unary _ | branch _ | dup | pop => 1
  | fieldStore _ | indexLoad | binary _ | swap => 2
  | indexStore => 3
  | allocClosure n | call n => 1 + n
  | _ => 0

/-- How many values an operation pushes. -/
def pushes : Operation → Nat
  | load _ | allocRecord | fieldLoad _ | indexLoad | allocClosure _ | call _ | binary _ | unary _ => 1
  | dup | swap => 2
  | _ => 0

/-- The label that an operation may jump to. -/
def jump? : Operation → Option Label
  | goto l | branch l => some l
  | _ => none

/-- The label that an operation defines. -/
def label? : Operation → Option Label
  | label l => some l
  | _ => none

/-- An operation does to the stack and to labels what an instruction says. -/
structure Renders (i : Instruction) (operation : Operation) : Prop where
  pops_eq : operation.pops = i.pops
  pushes_eq : operation.pushes = i.op.pushes
  jump?_eq : operation.jump? = i.jumps?
  label?_eq : operation.label? = i.defines?

/-- The operand of an instruction, checked for what it stands for. -/
def checked (index : Nat) (i : Instruction) : OperandRole → Except CompileError Nat
  | .index table length => indexInto index i table length
  | .count => countOf index i
  | .label => labelOf index i

variable {f : Bytecode.Function} {index : Nat} {i : Instruction} {role : OperandRole}

/-- The check of an operand that can stand for what it has to gives the operand. -/
theorem checked_of_admits {n : Int32} (hn : i.operand = some n) (h : role.Admits n.toInt) :
  checked index i role = .ok i.argument
  := by
  have harg : i.argument = n.toInt.toNat := by
    unfold Instruction.argument
    rw [hn]
  have hoperand : operandOf index i = .ok n.toInt := by
    unfold operandOf
    rw [hn]
  rw [harg]
  cases role with
  | index table length =>
    simp only [checked, indexInto, hoperand, bind, Except.bind]
    exact if_pos h
  | count =>
    simp only [checked, countOf, hoperand, bind, Except.bind]
    exact if_pos h
  | label =>
    simp only [checked, labelOf, hoperand, bind, Except.bind]
    exact if_pos h

/-- The check of an operand that cannot stand for what it has to gives the error of its role. -/
theorem checked_of_not_admits {n : Int32} (hn : i.operand = some n) (h : ¬ role.Admits n.toInt) :
  checked index i role = .error (role.refuse i.op n.toInt)
  := by
  have hoperand : operandOf index i = .ok n.toInt := by
    unfold operandOf
    rw [hn]
  cases role with
  | index table length =>
    simp only [checked, indexInto, hoperand, bind, Except.bind]
    exact if_neg h
  | count =>
    simp only [checked, countOf, hoperand, bind, Except.bind]
    exact if_neg h
  | label =>
    simp only [checked, labelOf, hoperand, bind, Except.bind]
    exact if_neg h

/-- The check of an operand that is not there gives the error for a missing one. -/
theorem checked_of_none (hn : i.operand = none) :
  checked index i role
    = .error (.invalidOperation s!"`{i.op.mnemonic}` at bytecode instruction {index} has no operand")
  := by
  have hoperand : operandOf index i = .error (.invalidOperation
      s!"`{i.op.mnemonic}` at bytecode instruction {index} has no operand") := by
    unfold operandOf
    rw [hn]
  cases role with
  | index table length => simp only [checked, indexInto, hoperand, bind, Except.bind]
  | count => simp only [checked, countOf, hoperand, bind, Except.bind]
  | label => simp only [checked, labelOf, hoperand, bind, Except.bind]

/-- An instruction is decoded to an operation that renders it, after its operand has been checked
if it needs one. -/
theorem ofInstruction_cases (f : Bytecode.Function) (index : Nat) (i : Instruction) :
  (i.op.role? f = none ∧ ∃ operation, ofInstruction f index i = .ok operation ∧ Renders i operation) ∨
    ∃ role, ∃ make : Nat → Operation, i.op.role? f = some role ∧
      ofInstruction f index i = (do return make (← checked index i role)) ∧ Renders i (make i.argument)
  := by
  obtain ⟨op, operand⟩ := i
  cases op with
  | loadConst | loadFunc | loadLocal | storeLocal | loadGlobal | storeGlobal | pushRef | loadRef | storeRef
  | fieldLoad | fieldStore | allocClosure | call | label | goto | branch | throwUninitialized =>
    exact .inr ⟨_, _, rfl, rfl, rfl, rfl, rfl, rfl⟩
  | _ => exact .inl ⟨rfl, _, rfl, rfl, rfl, rfl, rfl⟩

/-- An instruction whose operand is in order is decoded, to an operation that does to the stack
and to labels what the instruction says. -/
theorem ofInstruction_of_inOrder (index : Nat) (h : i.InOrder f) :
  ∃ operation, ofInstruction f index i = .ok operation ∧ Renders i operation
  := by
  rcases ofInstruction_cases f index i with ⟨-, hok⟩ | ⟨role, make, hrole, hdecode, hrenders⟩
  · exact hok
  · obtain ⟨n, hn, hadmits⟩ := h role hrole
    refine ⟨make i.argument, ?_, hrenders⟩
    rw [hdecode, checked_of_admits hn hadmits]
    rfl

/-- An instruction whose operand fails its check is not decoded, and the error is that of the
check. -/
theorem ofInstruction_of_checked {e : CompileError} (hrole : i.op.role? f = some role)
    (h : checked index i role = .error e) :
  ofInstruction f index i = .error e
  := by
  rcases ofInstruction_cases f index i with ⟨hnone, -⟩ | ⟨role', make, hrole', hdecode, -⟩
  · rw [hrole] at hnone
    cases hnone
  · rw [hrole] at hrole'
    cases hrole'
    rw [hdecode, h]
    rfl

end Operation

/-! ### Steps -/

namespace Lowering

variable {f : Bytecode.Function} {s s' : Lowering} {operation : Operation}

/-- The result of a request can always be pushed. -/
theorem exists_pushResult (s : Lowering) :
  ∃ s', s.pushResult = .ok s'
  := by
  unfold pushResult operandFor Function.location
  simp only [OperandKind.isLocation, if_true]
  cases s.func.find? .retval with
  | none => exact ⟨_, rfl⟩
  | some id => exact ⟨_, rfl⟩

/-- The operand of a regular operation is found or made. -/
theorem exists_operandFor (s : Lowering) {kind : OperandKind}
    (hkind : kind.isLocation = true ∨ (∃ c, kind = .const c) ∨ ∃ n, kind = .var n) :
  ∃ p, s.operandFor kind = .ok p
  := by
  rcases hkind with hkind | ⟨c, rfl⟩ | ⟨n, rfl⟩
  · obtain ⟨p, hp⟩ : ∃ p, s.func.location kind = .ok p := by
      unfold Function.location
      rw [if_pos hkind]
      cases s.func.find? kind with
      | none => exact ⟨_, rfl⟩
      | some id => exact ⟨_, rfl⟩
    cases kind with
    | const c | var n => cases hkind
    | _ =>
      simp only [operandFor, hp, bind, Except.bind]
      exact ⟨_, rfl⟩
  · exact ⟨_, rfl⟩
  · exact ⟨_, rfl⟩

/-- A label that is there already is refused. -/
theorem step_of_label {u : CompileError} {l : Label} (hl : operation.label? = some l)
    (hlabel : (s.func.labels.at? l).isSome = true) :
  s.step u operation = .error (.invalidOperation s!"label {l} defined twice")
  := by
  cases operation with
  | label l' =>
    cases hl
    exact if_pos hlabel
  | _ => cases hl

/-- An operation that pops more values than the stack has fails with the error `u` of an underflow.
-/
theorem step_of_lt {u : CompileError} (h : s.stack.length < operation.pops) :
  s.step u operation = .error u
  := by
  obtain ⟨func, stack⟩ := s
  cases operation with
  | store dest | fieldLoad field | ret | unary op | branch l | dup | pop =>
    rcases stack with - | ⟨v, stack⟩
    · rfl
    · simp only [Operation.pops, List.length_cons] at h
      omega
  | fieldStore field | indexLoad | binary op | swap =>
    rcases stack with - | ⟨v, - | ⟨w, stack⟩⟩
    · rfl
    · rfl
    · simp only [Operation.pops, List.length_cons] at h
      omega
  | indexStore =>
    rcases stack with - | ⟨v, - | ⟨w, - | ⟨x, stack⟩⟩⟩
    · rfl
    · rfl
    · rfl
    · simp only [Operation.pops, List.length_cons] at h
      omega
  | allocClosure n | call n =>
    rcases stack with - | ⟨v, stack⟩
    · rfl
    · refine if_neg ?_
      simp only [Operation.pops, List.length_cons] at h
      omega
  | _ => exact absurd h (Nat.not_lt_zero _)

/-- A step that has the values it pops, and no label to define twice, succeeds. -/
theorem exists_step (u : CompileError) (hregular : operation.Regular)
    (hpops : operation.pops ≤ s.stack.length)
    (hlabel : ∀ l, operation.label? = some l → s.func.labels.at? l = none) :
  ∃ s', s.step u operation = .ok s'
  := by
  obtain ⟨func, stack⟩ := s
  cases operation with
  | load source =>
    have hkind : source.isLocation = true ∨ (∃ c, source = .const c) ∨ ∃ n, source = .var n := by
      cases source with
      | temp n | retval => cases hregular
      | const c => exact .inr (.inl ⟨c, rfl⟩)
      | var n => exact .inr (.inr ⟨n, rfl⟩)
      | _ => exact .inl rfl
    obtain ⟨p, hp⟩ := exists_operandFor ⟨func, stack⟩ hkind
    simp only [step, hp, bind, Except.bind]
    cases source with
    | _ => exact ⟨_, rfl⟩
  | store dest =>
    have hkind : dest.isLocation = true ∨ (∃ c, dest = .const c) ∨ ∃ n, dest = .var n := by
      cases dest with
      | var n => exact .inr (.inr ⟨n, rfl⟩)
      | global n | contents n => exact .inl rfl
      | _ => cases hregular
    rcases stack with - | ⟨v, stack⟩
    · cases hpops
    · obtain ⟨p, hp⟩ := exists_operandFor ⟨func, stack⟩ hkind
      simp only [step, hp, bind, Except.bind]
      exact ⟨_, rfl⟩
  | allocRecord => exact exists_pushResult _
  | fieldLoad field =>
    rcases stack with - | ⟨v, stack⟩
    · cases hpops
    · exact exists_pushResult _
  | indexLoad =>
    rcases stack with - | ⟨v, - | ⟨w, stack⟩⟩
    · cases hpops
    · simp [Operation.pops] at hpops
    · exact exists_pushResult _
  | allocClosure n | call n =>
    rcases stack with - | ⟨v, stack⟩
    · simp [Operation.pops] at hpops
    · have hn : n ≤ stack.length := by
        simp only [Operation.pops, List.length_cons] at hpops
        omega
      simp only [step, if_pos hn]
      exact exists_pushResult _
  | label l =>
    have hnone := hlabel l rfl
    refine ⟨_, if_neg ?_⟩
    rw [hnone]
    exact Bool.false_ne_true
  | ret | unary op | branch l | dup | pop =>
    rcases stack with - | ⟨v, stack⟩
    · cases hpops
    · exact ⟨_, rfl⟩
  | fieldStore field | binary op | swap =>
    rcases stack with - | ⟨v, - | ⟨w, stack⟩⟩
    · cases hpops
    · simp [Operation.pops] at hpops
    · exact ⟨_, rfl⟩
  | indexStore =>
    rcases stack with - | ⟨v, - | ⟨w, - | ⟨x, stack⟩⟩⟩
    · cases hpops
    · simp [Operation.pops] at hpops
    · simp [Operation.pops] at hpops
    · exact ⟨_, rfl⟩
  | goto l | collect | throwUninitialized n => exact ⟨_, rfl⟩

/-- What an operation emits pops and pushes as many values as the operation does, and has its label
and its jump. -/
theorem emits_shape {operand dest dest' : OperandId} {stack stack' : List OperandId} {insts : List Inst}
    (h : operation.emits operand dest dest' stack = some (insts, stack')) :
  stack'.length + operation.pops = stack.length + operation.pushes ∧
    insts.filterMap Inst.target? = operation.jump?.toList ∧
    insts.filterMap Inst.label? = operation.label?.toList
  := by
  have hguards : ∀ (op : BinOp) (lhs rhs : OperandId),
      ((op.guards lhs rhs).map Inst.guard).filterMap Inst.target? = [] ∧
      ((op.guards lhs rhs).map Inst.guard).filterMap Inst.label? = [] := by
    intro op lhs rhs
    simp [List.filterMap_map, Inst.guard, Inst.target?, Inst.label?]
  cases Operation.emits_eq_some.mp h with
  | allocClosure n function st enough | call n closure st enough =>
    refine ⟨?_, rfl, rfl⟩
    simp only [List.length_cons, List.length_drop, Operation.pops, Operation.pushes]
    omega
  | binary op rhs lhs st =>
    rw [List.filterMap_append, List.filterMap_append, (hguards op lhs rhs).1, (hguards op lhs rhs).2]
    exact ⟨rfl, rfl, rfl⟩
  | _ => exact ⟨rfl, rfl, rfl⟩

/-! ### The course of lowering -/

/-- The state of lowering before an instruction has what the scan of the bytecode has found. -/
structure Tracks (f : Bytecode.Function) (k : Nat) (s : Lowering) : Prop where
  depth : (s.stack.length : Int) = f.depth k
  labels : ∀ l, (s.func.labels.at? l).isSome = true ↔ f.Defines k l
  targets : s.func.code.toList.filterMap Inst.target? = (f.instructions.take k).filterMap Instruction.jumps?

/-- The label table of code has a label if the code defines it. -/
theorem isSome_at?_labelsOf (code : List Inst) (l : Label) :
  ((Function.labelsOf code).at? l).isSome = true ↔ l ∈ code.filterMap Inst.label?
  := by
  induction code using List.reverseRecOn with
  | nil => simp [Function.labelsOf]
  | append_singleton code inst ih =>
    rw [Function.labelsOf_append_singleton, List.filterMap_append, List.mem_append, ← ih]
    cases hl : inst.label? with
    | none => simp [hl]
    | some l' =>
      by_cases heq : l = l'
      · simp [hl, heq]
      · simp [hl, heq]

/-- Lowering up to an instruction has found what the scan of the bytecode up to there finds. -/
theorem tracks_upTo {k : Nat} (hk : k ≤ f.instructions.length) (hs : upTo f k = .ok s) :
  Tracks f k s
  := by
  refine upTo_induction (P := fun k s => Tracks f k s) ?_ ?_ hk hs
  · refine ⟨rfl, fun l => ?_, rfl⟩
    constructor
    · rintro ⟨⟩
    · rintro ⟨j, -, hj, -⟩
      cases hj
  · intro k i s s' operation operand dest dest' insts ih hs hs' hi ho hem
    have hk := (List.getElem?_eq_some_iff.mp hi).1
    have hsound := sound_upTo (Nat.le_of_lt hk) hs
    have hsound' := sound_upTo (Nat.succ_le_of_lt hk) hs'
    obtain ⟨hlength, htargets, hlabels⟩ := emits_shape hem.shape
    have hrenders : Operation.Renders i operation := by
      rcases Operation.ofInstruction_cases f k i with ⟨-, o, ho', hr⟩ | ⟨role, make, -, hdecode, hr⟩
      · rw [ho] at ho'
        cases ho'
        exact hr
      · rw [hdecode] at ho
        obtain ⟨n, hn, rfl⟩ := Operation.map_eq_ok ho
        have hn : n = i.argument := by
          cases role with
          | index table length => exact (Operation.indexInto_eq_ok hn).1
          | count => exact Operation.countOf_eq_ok hn
          | label => exact Operation.labelOf_eq_ok hn
        rwa [hn]
    refine ⟨?_, fun l => ?_, ?_⟩
    · rw [hrenders.pops_eq, hrenders.pushes_eq] at hlength
      rw [Bytecode.Function.depth_succ hi, ← ih.depth]
      omega
    · have hold := ih.labels l
      rw [hsound.indexed, isSome_at?_labelsOf] at hold
      rw [hsound'.indexed, isSome_at?_labelsOf, hem.extend.code_eq, List.filterMap_append,
        List.mem_append, hold, Bytecode.Function.defines_succ hi, hlabels, hrenders.label?_eq,
        Option.mem_toList]
    · rw [hem.extend.code_eq, List.filterMap_append, ih.targets, htargets, hrenders.jump?_eq,
        List.take_add_one, hi, List.filterMap_append]
      cases hj : i.jumps? with
      | none => simp [hj]
      | some l => simp [hj]

section

variable {k : Nat} {i : Instruction} (htracks : Tracks f k s)
include htracks

/-- A refused instruction stops lowering with its error. -/
theorem stepInstruction_of_refusal {e : CompileError} (h : f.Refusal k i e) :
  s.stepInstruction f (i, k) = .error e
  := by
  have hdecoded : ∀ e, Operation.ofInstruction f k i = .error e →
      s.stepInstruction f (i, k) = .error e := by
    intro e he
    simp only [stepInstruction, he, bind, Except.bind]
  have hstep : i.InOrder f → ∃ operation, Operation.Renders i operation ∧ s.stepInstruction f (i, k)
      = s.step (.stackUnderflow k i.op.mnemonic) operation := by
    intro horder
    obtain ⟨operation, hoperation, hrenders⟩ := Operation.ofInstruction_of_inOrder k horder
    refine ⟨operation, hrenders, ?_⟩
    simp only [stepInstruction, hoperation, bind, Except.bind]
  cases h with
  | missing hrole hnone =>
    exact hdecoded _ (Operation.ofInstruction_of_checked hrole (Operation.checked_of_none hnone))
  | outside hrole hn hout =>
    exact hdecoded _ (Operation.ofInstruction_of_checked hrole (Operation.checked_of_not_admits hn hout))
  | repeated horder hl hdefined =>
    obtain ⟨operation, hrenders, heq⟩ := hstep horder
    rw [heq]
    exact step_of_label (hrenders.label?_eq.trans hl) ((htracks.labels _).mpr hdefined)
  | underflow horder hdepth =>
    obtain ⟨operation, hrenders, heq⟩ := hstep horder
    rw [heq]
    apply step_of_lt
    have hlength := htracks.depth
    rw [hrenders.pops_eq]
    omega

/-- An instruction that is not refused is lowered. -/
theorem exists_stepInstruction (hi : f.instructions[k]? = some i) (h : ∀ e, ¬ f.RefusedAt k e) :
  ∃ s', s.stepInstruction f (i, k) = .ok s'
  := by
  have hnot : ∀ e, ¬ f.Refusal k i e := fun e he => h e ⟨i, hi, he⟩
  have horder := Bytecode.Function.inOrder_of_not_refusal hnot
  obtain ⟨operation, hoperation, hrenders⟩ := Operation.ofInstruction_of_inOrder k horder
  simp only [stepInstruction, hoperation, bind, Except.bind]
  apply exists_step _ (Operation.regular_ofInstruction hoperation)
  · rw [hrenders.pops_eq]
    have hdepth : ¬ f.depth k < i.pops := fun hlt => hnot _ (.underflow horder hlt)
    have hlength := htracks.depth
    omega
  · intro l hl
    rw [← Option.not_isSome_iff_eq_none]
    intro hsome
    exact hnot _ (.repeated horder (hrenders.label?_eq.symm.trans hl) ((htracks.labels l).mp hsome))

end

/-- Lowering comes as far as no instruction is refused. -/
theorem exists_upTo_of_not_refused {k : Nat} (hk : k ≤ f.instructions.length)
    (h : ∀ j e, j < k → ¬ f.RefusedAt j e) :
  ∃ s, upTo f k = .ok s
  := by
  induction k with
  | zero => exact ⟨_, rfl⟩
  | succ k ih =>
    obtain ⟨s, hs⟩ := ih (Nat.le_of_succ_le hk) fun j e hj => h j e (Nat.lt_succ_of_lt hj)
    have hi : f.instructions[k]? = some f.instructions[k] := List.getElem?_eq_getElem hk
    obtain ⟨s', hs'⟩ := exists_stepInstruction (tracks_upTo (Nat.le_of_succ_le hk) hs) hi
      fun e => h k e (Nat.lt_succ_self k)
    refine ⟨s', ?_⟩
    rw [upTo_succ hi, hs]
    exact hs'

/-- The first instruction that is refused stops lowering with its error. -/
theorem upTo_of_refusedAt {k : Nat} {e : CompileError} (hrefused : f.RefusedAt k e)
    (h : ∀ j e, j < k → ¬ f.RefusedAt j e) :
  upTo f f.instructions.length = .error e
  := by
  obtain ⟨i, hi, hrefusal⟩ := hrefused
  have hk := (List.getElem?_eq_some_iff.mp hi).1
  obtain ⟨s, hs⟩ := exists_upTo_of_not_refused (Nat.le_of_lt hk) h
  have herror : upTo f (k + 1) = .error e := by
    rw [upTo_succ hi, hs]
    exact stepInstruction_of_refusal (tracks_upTo (Nat.le_of_lt hk) hs) hrefusal
  have hsplit : f.instructions.zipIdx
      = f.instructions.zipIdx.take (k + 1) ++ f.instructions.zipIdx.drop (k + 1) :=
    (List.take_append_drop ..).symm
  rw [upTo_length, hsplit, List.foldlM_append]
  change upTo f (k + 1) >>= _ = _
  rw [herror]
  rfl

end Lowering

/-! ### Targets of jumps -/

/-- Checking the elements of a list one after the other fails with the error of the first one that
fails. -/
theorem forM_eq_error {α ε : Type} {xs : List α} {check : α → Except ε Unit} {k : Nat} {x : α} {e : ε}
    (hx : xs[k]? = some x) (he : check x = .error e)
    (h : ∀ j y, j < k → xs[j]? = some y → check y = .ok ()) :
  xs.forM check = .error e
  := by
  induction xs generalizing k with
  | nil => cases hx
  | cons y xs ih =>
    change (check y >>= fun _ => xs.forM check) = .error e
    cases k with
    | zero =>
      cases hx
      rw [he]
      rfl
    | succ k =>
      rw [h 0 y (Nat.succ_pos k) rfl]
      exact ih hx fun j z hj hz => h (j + 1) z (Nat.succ_lt_succ hj) hz

/-- Checks that all succeed succeed together. -/
theorem forM_of_forall {α ε : Type} {xs : List α} {check : α → Except ε Unit}
    (h : ∀ x ∈ xs, check x = .ok ()) :
  xs.forM check = .ok ()
  := by
  induction xs with
  | nil => rfl
  | cons x xs ih =>
    change (check x >>= fun _ => xs.forM check) = .ok ()
    rw [h x List.mem_cons_self]
    exact ih fun y hy => h y (List.mem_cons_of_mem _ hy)

/-- What does not matter to a check can be left out. -/
theorem forM_filterMap {α β ε : Type} (g : α → Option β) (check : β → Except ε Unit) (xs : List α) :
  (xs.filterMap g).forM check = xs.forM fun x => ((g x).map check).getD (.ok ())
  := by
  induction xs with
  | nil => rfl
  | cons x xs ih =>
    cases hx : g x with
    | none =>
      change _ = (((g x).map check).getD (.ok ()) >>= fun _ => xs.forM _)
      rw [List.filterMap_cons_none hx, ih, hx]
      rfl
    | some y =>
      change _ = (((g x).map check).getD (.ok ()) >>= fun _ => xs.forM _)
      rw [List.filterMap_cons_some hx, hx, ← ih]
      rfl

namespace Function

/-- Refuses a label that is not defined. -/
def checkLabel (g : Function) (l : Label) : Except CompileError Unit := (g.labelPosition l).map fun _ => ()

variable {g : Function}

/-- A label of the table passes its check. -/
theorem checkLabel_of_isSome {l : Label} (h : (g.labels.at? l).isSome = true) :
  g.checkLabel l = .ok ()
  := by
  obtain ⟨pos, hpos⟩ := Option.isSome_iff_exists.mp h
  unfold checkLabel labelPosition
  rw [hpos]
  rfl

/-- A label that the table does not have is refused. -/
theorem checkLabel_of_not_isSome {l : Label} (h : ¬ (g.labels.at? l).isSome = true) :
  g.checkLabel l = .error (.unknownLabel l)
  := by
  unfold checkLabel labelPosition
  rw [Option.not_isSome_iff_eq_none.mp h]
  rfl

/-- The targets of the jumps are checked in the order of the code. -/
theorem checkTargets_eq (h : g.pending = []) :
  g.checkTargets = (g.code.toList.filterMap Inst.target?).forM g.checkLabel
  := by
  rw [← live_of_pending_nil h, List.filterMap_map, forM_filterMap]
  unfold checkTargets
  congr 1
  funext ⟨pos, inst⟩
  cases hl : inst.target? with
  | none => simp [hl]
  | some l => simp [hl, checkLabel]

end Function

namespace Lowering

variable {f : Bytecode.Function} {s : Lowering}

/-- A function is lowered with the check of its jumps if no instruction is refused. -/
theorem lower_eq_of_upTo (hs : upTo f f.instructions.length = .ok s) :
  lower f = (do
    f.instructions.forM fun i => (i.jumps?.map s.func.checkLabel).getD (.ok ())
    return s.func)
  := by
  have htracks := tracks_upTo (Nat.le_refl _) hs
  have hpending := (sound_upTo (Nat.le_refl _) hs).pending_nil
  unfold lower
  rw [← upTo_length, hs]
  change (s.func.checkTargets >>= fun _ => pure s.func) = _
  rw [Function.checkTargets_eq hpending, htracks.targets, List.take_length, forM_filterMap]

/-- A check of an instruction fails if it is a jump without a label. -/
theorem checkLabel_of_lostAt (htracks : Tracks f f.instructions.length s) {k l : Nat}
    (h : f.LostAt k l) :
  ∃ i, f.instructions[k]? = some i ∧
    (i.jumps?.map s.func.checkLabel).getD (.ok ()) = .error (.unknownLabel l)
  := by
  obtain ⟨i, hi, hl, hnot⟩ := h
  refine ⟨i, hi, ?_⟩
  rw [hl]
  exact Function.checkLabel_of_not_isSome fun hsome => hnot ((htracks.labels l).mp hsome)

/-- An instruction that is not a jump without a label passes the check of its target. -/
theorem checkLabel_of_not_lostAt (htracks : Tracks f f.instructions.length s) {k : Nat} {i : Instruction}
    (hi : f.instructions[k]? = some i) (h : ∀ l, ¬ f.LostAt k l) :
  (i.jumps?.map s.func.checkLabel).getD (.ok ()) = .ok ()
  := by
  cases hl : i.jumps? with
  | none => rfl
  | some l =>
    apply Function.checkLabel_of_isSome
    apply (htracks.labels l).mpr
    by_contra hnot
    exact h l ⟨i, hi, hl, hnot⟩

/-- The error that a function reports is that of lowering it. -/
theorem lower_of_reports {e : CompileError} (h : f.Reports e) :
  lower f = .error e
  := by
  rcases h with ⟨k, hrefused, hfirst⟩ | ⟨hnone, k, l, hlost, hfirst, rfl⟩
  · unfold lower
    rw [← upTo_length, upTo_of_refusedAt hrefused hfirst]
    rfl
  · obtain ⟨s, hs⟩ := exists_upTo_of_not_refused (Nat.le_refl _) fun j e _ => hnone j e
    have htracks := tracks_upTo (Nat.le_refl _) hs
    obtain ⟨i, hi, herror⟩ := checkLabel_of_lostAt htracks hlost
    rw [lower_eq_of_upTo hs, forM_eq_error hi herror fun j i' hj hi' =>
      checkLabel_of_not_lostAt htracks hi' fun l' => hfirst j l' hj]
    rfl

/-- An acceptable function is lowered. -/
theorem exists_lower (h : f.Acceptable) :
  ∃ g, lower f = .ok g
  := by
  obtain ⟨hrefused, hlost⟩ := Bytecode.Function.acceptable_iff.mp h
  obtain ⟨s, hs⟩ := exists_upTo_of_not_refused (Nat.le_refl _) fun j e _ => hrefused j e
  have htracks := tracks_upTo (Nat.le_refl _) hs
  refine ⟨s.func, ?_⟩
  rw [lower_eq_of_upTo hs, forM_of_forall]
  · rfl
  · intro i hi
    obtain ⟨k, hk⟩ := List.mem_iff_getElem?.mp hi
    exact checkLabel_of_not_lostAt htracks hk (hlost k)

/-- A function that is not acceptable reports an error. -/
theorem exists_reports (h : ¬ f.Acceptable) :
  ∃ e, f.Reports e
  := by
  classical
  by_cases hrefused : ∃ k e, f.RefusedAt k e
  · obtain ⟨e, he⟩ := Nat.find_spec hrefused
    refine ⟨e, .inl ⟨_, he, fun j e' hj he' => ?_⟩⟩
    exact Nat.find_min hrefused hj ⟨e', he'⟩
  · have hnone : ∀ k e, ¬ f.RefusedAt k e := fun k e he => hrefused ⟨k, e, he⟩
    have hlost : ∃ k l, f.LostAt k l := by
      by_contra hnot
      exact h (Bytecode.Function.acceptable_iff.mpr ⟨hnone, fun k l hl => hnot ⟨k, l, hl⟩⟩)
    obtain ⟨l, hl⟩ := Nat.find_spec hlost
    refine ⟨.unknownLabel l, .inr ⟨hnone, _, l, hl, fun j l' hj hl' => ?_, rfl⟩⟩
    exact Nat.find_min hlost hj ⟨l', hl'⟩

end Lowering

/-- Lowering accepts a function if a scan of its instructions finds nothing wrong, and otherwise
fails with the error of the first instruction that is refused, or with that of the first jump
without a label if no instruction is refused. -/
theorem lower_accepts (f : Bytecode.Function) :
  ((∃ g, lower f = .ok g) ↔ f.Acceptable) ∧ ∀ e, lower f = .error e ↔ f.Reports e
  := by
  constructor
  · constructor
    · rintro ⟨g, hg⟩
      by_contra hnot
      obtain ⟨e, he⟩ := Lowering.exists_reports hnot
      rw [Lowering.lower_of_reports he] at hg
      cases hg
    · exact Lowering.exists_lower
  · intro e
    constructor
    · intro herror
      have hnot : ¬ f.Acceptable := by
        intro h
        obtain ⟨g, hg⟩ := Lowering.exists_lower h
        rw [hg] at herror
        cases herror
      obtain ⟨e', he'⟩ := Lowering.exists_reports hnot
      rw [Lowering.lower_of_reports he'] at herror
      cases herror
      exact he'
    · exact Lowering.lower_of_reports

end IR

end StackCompiler
