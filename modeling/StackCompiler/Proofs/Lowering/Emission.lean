import StackCompiler.Proofs.Lowering.Extension

/-!
# What lowering emits

`Operation.emits` gives the instructions that an operation is lowered to and the stack it
leaves, in terms of the operand it loads or stores and of the new temps, and `Operation.Emits`
is its graph.  `step_emits` says that one step of lowering adds exactly these, and is all that
later proofs use of it.
-/

namespace StackCompiler.IR

open Bytecode (Constant)

/-- The types that are known of what an instruction defines, whatever its operands are. -/
def Inst.resultTypes : Inst → TypeSet
  | binary op _ _ _ => op.resultTypes
  | unary op _ _ => op.resultTypes
  | _ => .empty

/-- An assertion about an operand. -/
def Inst.guard (demand : AssertKind × OperandId) : Inst := assertion demand.1 demand.2

/-- What is asserted in front of a binary operation. -/
def BinOp.guards (op : BinOp) (lhs rhs : OperandId) : List (AssertKind × OperandId) :=
  match op.demands? with
  | none => []
  | some kind => [(kind, lhs), (kind, rhs)] ++ if op = .div then [(.notZero, rhs)] else []

/-- What is asserted in front of a binary operation is about one of its operands. -/
theorem BinOp.mem_guards {op : BinOp} {lhs rhs : OperandId} {p : AssertKind × OperandId}
    (h : p ∈ op.guards lhs rhs) :
  p.2 = lhs ∨ p.2 = rhs
  := by
  unfold guards at h
  split at h
  · cases h
  · split at h
    all_goals
      simp at h
      rcases h with rfl | rfl | rfl <;> simp

namespace Operation

/-- The instructions to which an operation is lowered and the stack after it: `operand` is
what it loads or stores, `dest` and `dest'` are new temps. -/
def emits (operand dest dest' : OperandId) :
    Operation → List OperandId → Option (List Inst × List OperandId)
  | load _, st => some ([.assign dest operand], dest :: st)
  | store _, v :: st => some ([.store operand v], st)
  | allocRecord, st => some ([.helper .allocRecord, .assign dest operand], dest :: st)
  | fieldLoad n, record :: st =>
    some ([.helper (.fieldLoad n record), .assign dest operand], dest :: st)
  | fieldStore n, v :: record :: st => some ([.helper (.fieldStore n record v)], st)
  | indexLoad, index :: record :: st =>
    some ([.helper (.indexLoad record index), .assign dest operand], dest :: st)
  | indexStore, v :: index :: record :: st => some ([.helper (.indexStore record index v)], st)
  | allocClosure n, function :: st =>
    if n ≤ st.length then
      some ([.allocClosure function (st.take n), .assign dest operand], dest :: st.drop n)
    else none
  | call n, closure :: st =>
    if n ≤ st.length then
      some ([.call closure (st.take n).reverse, .assign dest operand], dest :: st.drop n)
    else none
  | ret, v :: st => some ([.ret v], st)
  | binary op, rhs :: lhs :: st =>
    some ((op.guards lhs rhs).map .guard ++ [.binary op dest lhs rhs], dest :: st)
  | unary op, v :: st => some ([.assertion op.demands v, .unary op dest v], dest :: st)
  | label l, st => some ([.label l], st)
  | goto l, st => some ([.jump l], st)
  | branch l, cond :: st => some ([.assertion .bool cond, .condJump cond l], st)
  | dup, v :: st => some ([.fork v dest dest'], dest' :: dest :: st)
  | swap, v :: u :: st => some ([], u :: v :: st)
  | pop, _ :: st => some ([], st)
  | collect, st => some ([.helper .collect], st)
  | throwUninitialized n, st => some ([.helper (.throwUninitialized n)], st)
  | _, _ => none

/-- What an operation emits, as a relation.  A proof about it has a case for each operation, and none
for stacks that are too short. -/
inductive Emits (operand dest dest' : OperandId) :
    Operation → List OperandId → List Inst → List OperandId → Prop where
  | load source st : Emits operand dest dest' (load source) st [.assign dest operand] (dest :: st)
  | store kind v st : Emits operand dest dest' (store kind) (v :: st) [.store operand v] st
  | allocRecord st : Emits operand dest dest' allocRecord st
      [.helper .allocRecord, .assign dest operand] (dest :: st)
  | fieldLoad n record st : Emits operand dest dest' (fieldLoad n) (record :: st)
      [.helper (.fieldLoad n record), .assign dest operand] (dest :: st)
  | fieldStore n v record st : Emits operand dest dest' (fieldStore n) (v :: record :: st)
      [.helper (.fieldStore n record v)] st
  | indexLoad index record st : Emits operand dest dest' indexLoad (index :: record :: st)
      [.helper (.indexLoad record index), .assign dest operand] (dest :: st)
  | indexStore v index record st : Emits operand dest dest' indexStore (v :: index :: record :: st)
      [.helper (.indexStore record index v)] st
  | allocClosure n function st (enough : n ≤ st.length) :
    Emits operand dest dest' (allocClosure n) (function :: st)
      [.allocClosure function (st.take n), .assign dest operand] (dest :: st.drop n)
  | call n closure st (enough : n ≤ st.length) :
    Emits operand dest dest' (call n) (closure :: st)
      [.call closure (st.take n).reverse, .assign dest operand] (dest :: st.drop n)
  | ret v st : Emits operand dest dest' ret (v :: st) [.ret v] st
  | binary op rhs lhs st : Emits operand dest dest' (binary op) (rhs :: lhs :: st)
      ((op.guards lhs rhs).map .guard ++ [.binary op dest lhs rhs]) (dest :: st)
  | unary op v st : Emits operand dest dest' (unary op) (v :: st)
      [.assertion op.demands v, .unary op dest v] (dest :: st)
  | label l st : Emits operand dest dest' (label l) st [.label l] st
  | goto l st : Emits operand dest dest' (goto l) st [.jump l] st
  | branch l cond st : Emits operand dest dest' (branch l) (cond :: st)
      [.assertion .bool cond, .condJump cond l] st
  | dup v st : Emits operand dest dest' dup (v :: st) [.fork v dest dest'] (dest' :: dest :: st)
  | swap v u st : Emits operand dest dest' swap (v :: u :: st) [] (u :: v :: st)
  | pop v st : Emits operand dest dest' pop (v :: st) [] st
  | collect st : Emits operand dest dest' collect st [.helper .collect] st
  | throwUninitialized n st : Emits operand dest dest' (throwUninitialized n) st
      [.helper (.throwUninitialized n)] st

/-- The relation `Emits` is the graph of `emits`. -/
theorem emits_eq_some {operation : Operation} {operand dest dest' : OperandId}
    {st st' : List OperandId} {insts : List Inst} :
  operation.emits operand dest dest' st = some (insts, st') ↔
    Emits operand dest dest' operation st insts st'
  := by
  constructor
  · intro h
    unfold emits at h
    split at h
    case h_8 | h_9 =>
      obtain ⟨hn, heq⟩ := Option.ite_none_right_eq_some.mp h
      cases heq
      constructor
      exact hn
    case h_21 => cases h
    all_goals
      cases h
      constructor
  · intro h
    cases h with
    | allocClosure n function st enough | call n closure st enough => exact if_pos enough
    | _ => rfl

/-- What the operand of an operation is. -/
def operandKind? : Operation → Option OperandKind
  | load source => some source
  | store dest => some dest
  | allocRecord | fieldLoad _ | indexLoad | allocClosure _ | call _ => some .retval
  | _ => none

/-! ### Families of operations -/

/-- The instruction of an operation whose result comes from the return location, and the stack
without its operands. -/
def request? : Operation → List OperandId → Option (Inst × List OperandId)
  | allocRecord, st => some (.helper .allocRecord, st)
  | fieldLoad n, record :: st => some (.helper (.fieldLoad n record), st)
  | indexLoad, index :: record :: st => some (.helper (.indexLoad record index), st)
  | allocClosure n, function :: st =>
    if n ≤ st.length then some (.allocClosure function (st.take n), st.drop n) else none
  | call n, closure :: st =>
    if n ≤ st.length then some (.call closure (st.take n).reverse, st.drop n) else none
  | _, _ => none

/-- Whether the result of an operation comes from the return location. -/
def isRequest : Operation → Bool
  | allocRecord | fieldLoad _ | indexLoad | allocClosure _ | call _ => true
  | _ => false

/-- What an operation whose result comes from the return location emits. -/
theorem emits_request {operation : Operation} (hrequest : operation.isRequest = true)
    (operand dest dest' : OperandId) (st : List OperandId) :
  operation.emits operand dest dest' st = (operation.request? st).map fun made =>
    ([made.1] ++ [.assign dest operand], dest :: made.2)
  := by
  cases operation with
  | allocRecord => rfl
  | fieldLoad n => cases st <;> rfl
  | indexLoad => rcases st with - | ⟨index, - | ⟨record, st⟩⟩ <;> rfl
  | allocClosure n | call n =>
    rcases st with - | ⟨first, st⟩
    · rfl
    by_cases hn : n ≤ st.length
    · simp [emits, request?, hn]
    · simp [emits, request?, hn]
  | _ => cases hrequest

/-- An instruction whose result comes from the return location defines nothing. -/
theorem defs_of_request? {operation : Operation} {st : List OperandId} {made : Inst × List OperandId}
    (h : operation.request? st = some made) :
  made.1.defs = []
  := by
  unfold request? at h
  split at h
  case h_1 | h_2 | h_3 =>
    cases h
    rfl
  case h_4 | h_5 =>
    obtain ⟨-, heq⟩ := Option.ite_none_right_eq_some.mp h
    cases heq
    rfl
  case h_6 => cases h

/-- Whether an operation only adds instructions, without operands of its own. -/
def isPlain : Operation → Bool
  | fieldStore _ | indexStore | ret | goto _ | branch _ | swap | pop | collect
  | throwUninitialized _ => true
  | _ => false

/-- What an operation without operands of its own emits defines nothing. -/
theorem defs_plain {operation : Operation} (hplain : operation.isPlain = true)
    {operand dest dest' : OperandId} {st st' : List OperandId} {insts : List Inst}
    (h : operation.Emits operand dest dest' st insts st') :
  ∀ i ∈ insts, i.defs = []
  := by
  cases h with
  | fieldStore | indexStore | ret | goto | branch | swap | pop | collect | throwUninitialized =>
    simp [Inst.defs]
  | _ => cases hplain

end Operation

namespace Lowering

open IR.Function

variable {s s' : Lowering} {operation : Operation} {operand dest dest' : OperandId} {insts : List Inst}
  {u : CompileError}

/-- One step of lowering: the instructions of an operation are added. -/
structure Emission (s : Lowering) (operation : Operation) (s' : Lowering)
    (operand dest dest' : OperandId) (insts : List Inst) : Prop where
  shape : operation.emits operand dest dest' s.stack = some (insts, s'.stack)
  extend : s.func.Extends s'.func insts
  operand_kind : ∀ kind, operation.operandKind? = some kind →
    operand < s'.func.operands.size ∧ s'.func.kind operand = kind
  dest_ne : dest ≠ dest'
  defs_fresh : ∀ i ∈ insts, ∀ t ∈ i.defs, s.func.operands.size ≤ t ∧ t < s'.func.operands.size
  defs_known : ∀ i ∈ insts, ∀ t ∈ i.defs, s'.func.isTemp t = true ∧
    (s'.func.operand t).types = i.resultTypes ∧ (s'.func.operand t).constant = none
  label_new : ∀ l, operation = .label l → s.func.labels.at? l = none

/-- What a step of lowering adds is what the operation emits. -/
theorem Emission.emits (h : Emission s operation s' operand dest dest' insts) :
  operation.Emits operand dest dest' s.stack insts s'.stack
  := Operation.emits_eq_some.mp h.shape

/-! ### Pushes and operands -/

theorem union_empty_left (s : TypeSet) :
  TypeSet.union {} s = s
  := by
  simp [TypeSet.union]

/-- A temp about which only its types are known. -/
def tempOf (f : Function) (types : TypeSet) : Operand :=
  { Operand.ofKind (.temp f.tempCount) with types }

/-- Pushing a temp adds one with the given types, and puts it on the stack. -/
theorem pushTemp_eq (s : Lowering) (types : TypeSet) :
  s.pushTemp types = (s.func.operands.size,
    ⟨(s.func.addOperand (tempOf s.func types)).2, s.func.operands.size :: s.stack⟩)
  := by
  simp only [pushTemp, newTemp, addTypes]
  rw [fst_addOperand, modify_addOperand]
  simp only [Operand.ofKind, union_empty_left, tempOf]

/-- An operand that was added is the last one of the table. -/
theorem addOperand_spec {f : Function} {o : Operand} (ho : f.Admissible o) :
  f.Extends (f.addOperand o).2 [] ∧ f.operands.size < (f.addOperand o).2.operands.size ∧
    (f.addOperand o).2.kind f.operands.size = o.kind
  := by
  refine ⟨extends_addOperand ho, ?_, ?_⟩
  · rw [size_addOperand]
    exact Nat.lt_succ_self _
  · unfold Function.kind
    rw [operand_addOperand_self]

/-- Adding instructions one after the other extends a function by them. -/
theorem extends_pushAll (f : Function) (insts : List Inst) :
  f.Extends (insts.foldl Function.push f) insts
  := by
  induction insts generalizing f with
  | nil => exact Extends.refl f
  | cons inst insts ih => exact (extends_push f inst).trans (ih _)

/-- A new temp: it is the last operand, and only its types are known. -/
structure NewTemp (f f' : Function) (t : OperandId) (types : TypeSet) : Prop where
  size_le : f.operands.size ≤ t
  lt_size : t < f'.operands.size
  isTemp : f'.isTemp t = true
  types_eq : (f'.operand t).types = types
  constant_eq : (f'.operand t).constant = none

/-- A temp of which no literal is known is new when it is added. -/
theorem newTemp_addOperand {f : Function} {o : Operand} (htemp : o.isTemp = true)
    (hconst : o.constant = none) :
  NewTemp f (f.addOperand o).2 f.operands.size o.types
  := by
  constructor
  · exact Nat.le_refl _
  · rw [size_addOperand]
    exact Nat.lt_succ_self _
  · unfold Function.isTemp
    rw [operand_addOperand_self, htemp]
  · rw [operand_addOperand_self]
  · rw [operand_addOperand_self, hconst]

/-- A new temp stays one when an instruction is added. -/
theorem NewTemp.push {f f' : Function} {t : OperandId} {types : TypeSet}
    (h : NewTemp f f' t types) (inst : Inst) :
  NewTemp f (f'.push inst) t types
  := ⟨h.size_le, h.lt_size, h.isTemp, h.types_eq, h.constant_eq⟩

/-- Pushing a temp filled from an operand. -/
theorem pushAssign_spec (s : Lowering) (src : OperandId) :
  (s.pushAssign src).2.stack = (s.pushAssign src).1 :: s.stack ∧
    s.func.Extends (s.pushAssign src).2.func [.assign (s.pushAssign src).1 src] ∧
    NewTemp s.func (s.pushAssign src).2.func (s.pushAssign src).1 .empty
  := by
  simp only [pushAssign, pushTemp_eq]
  refine ⟨rfl, (extends_addOperand (admissible_temp .empty)).trans (extends_push _ _), ?_⟩
  exact (newTemp_addOperand (o := tempOf s.func .empty) rfl rfl).push _

/-- Pushing a temp filled from a variable, with a note of where it comes from. -/
theorem pushAssign_loaded_spec (s : Lowering) {src : OperandId} (hsrc : src < s.func.operands.size)
    (hvar : s.func.isVar src = true) :
  s.func.Extends ((s.pushAssign src).2.func.modify (s.pushAssign src).1
      fun o => { o with loadedFrom := some src }) [.assign (s.pushAssign src).1 src] ∧
    NewTemp s.func ((s.pushAssign src).2.func.modify (s.pushAssign src).1
      fun o => { o with loadedFrom := some src }) (s.pushAssign src).1 .empty
  := by
  simp only [pushAssign, pushTemp_eq]
  have hmodify : ∀ (f : Function) (o : Operand) (inst : Inst) (change : Operand → Operand),
      ((f.addOperand o).2.push inst).modify f.operands.size change
        = (f.addOperand (change o)).2.push inst := by
    intro f o inst change
    rw [← modify_addOperand]
    rfl
  have hadm : s.func.Admissible { tempOf s.func .empty with loadedFrom := some src } := by
    obtain ⟨h₁, h₂, h₃, h₄, h₅, -⟩ := admissible_temp (f := s.func) .empty
    refine ⟨h₁, h₂, h₃, h₄, h₅, ?_⟩
    rintro v ⟨rfl⟩
    exact ⟨hsrc, hvar⟩
  simp only [emit, hmodify]
  refine ⟨(extends_addOperand hadm).trans (extends_push _ _), ?_⟩
  exact (newTemp_addOperand (o := { tempOf s.func .empty with loadedFrom := some src }) rfl rfl).push _

/-- The operand that a load or a store names is in the table afterwards. -/
theorem location_spec {kind : OperandKind} {id : OperandId}
    (h : (do let (id, func) ← s.func.location kind return (id, { s with func }) : Except CompileError (OperandId × Lowering)) = .ok (id, s')) :
  s'.stack = s.stack ∧ s.func.Extends s'.func [] ∧ id < s'.func.operands.size ∧
    s'.func.kind id = kind
  := by
  unfold location at h
  split at h
  · rename_i hl
    split at h
    · rename_i id' hf
      cases h
      obtain ⟨hlt, hk⟩ := find?_eq_some hf
      exact ⟨rfl, Extends.refl _, hlt, hk⟩
    · cases h
      obtain ⟨he, hlt, hk⟩ := addOperand_spec (admissible_location hl)
      exact ⟨rfl, he, hlt, hk.trans (kind_ofKind _)⟩
  · cases h

/-- The operand for a kind is of this kind.  It is looked up or added, and neither the stack nor
the code is changed. -/
theorem operandFor_spec {kind : OperandKind} {id : OperandId} (h : s.operandFor kind = .ok (id, s')) :
  s'.stack = s.stack ∧ s.func.Extends s'.func [] ∧ id < s'.func.operands.size ∧
    s'.func.kind id = kind
  := by
  cases kind with
  | const c =>
    cases h
    obtain ⟨he, hlt, hk⟩ := addOperand_spec (f := s.func) (admissible_const c)
    exact ⟨rfl, he, hlt, hk.trans (kind_ofKind _)⟩
  | var n =>
    simp only [operandFor, Function.var] at h
    cases hf : s.func.find? (.var n) with
    | some id' =>
      rw [hf] at h
      cases h
      obtain ⟨hlt, hk⟩ := find?_eq_some hf
      exact ⟨rfl, Extends.refl _, hlt, hk⟩
    | none =>
      rw [hf] at h
      cases h
      obtain ⟨he, hlt, hk⟩ := addOperand_spec (admissible_var hf)
      refine ⟨rfl, he, hlt, hk.trans ?_⟩
      split <;> rfl
  | temp n => exact location_spec h
  | global n => exact location_spec h
  | cell n => exact location_spec h
  | contents n => exact location_spec h
  | function n => exact location_spec h
  | retval => exact location_spec h

/-! ### The steps -/

/-- An operation that takes no operand of its own and makes no temp. -/
theorem emission_of_pushAll (hfunc : s'.func = insts.foldl Function.push s.func)
    (hshape : operation.emits 0 0 1 s.stack = some (insts, s'.stack))
    (hkind : operation.operandKind? = none) (hdefs : ∀ i ∈ insts, i.defs = [])
    (hlabel : ∀ l, operation = .label l → s.func.labels.at? l = none) :
  Emission s operation s' 0 0 1 insts
  := by
  constructor
  · exact hshape
  · rw [hfunc]
    apply extends_pushAll
  · intro kind hk
    rw [hkind] at hk
    cases hk
  · exact Nat.zero_ne_one
  · intro i hi t ht
    rw [hdefs i hi] at ht
    cases ht
  · intro i hi t ht
    rw [hdefs i hi] at ht
    cases ht
  · exact hlabel

/-- The emission of an operation whose last instruction alone defines anything, namely the new temp
`dest`. -/
theorem emission_of_newTemp {last : Inst}
    (hshape : operation.emits operand dest (dest + 1) s.stack = some (insts ++ [last], s'.stack))
    (hext : s.func.Extends s'.func (insts ++ [last])) (hdefs : ∀ i ∈ insts, i.defs = [])
    (hlast : last.defs = [dest]) (hnew : NewTemp s.func s'.func dest last.resultTypes)
    (hkind : ∀ kind, operation.operandKind? = some kind → operand < s'.func.operands.size ∧ s'.func.kind operand = kind)
    (hlabel : ∀ l, operation ≠ .label l) :
  Emission s operation s' operand dest (dest + 1) (insts ++ [last])
  := by
  have hcases : ∀ i ∈ insts ++ [last], ∀ t ∈ i.defs, i = last ∧ t = dest := by
    intro i hi t ht
    rcases List.mem_append.mp hi with hi | hi
    · rw [hdefs i hi] at ht
      cases ht
    · rw [List.mem_singleton] at hi
      subst hi
      rw [hlast, List.mem_singleton] at ht
      exact ⟨rfl, ht⟩
  constructor
  · exact hshape
  · exact hext
  · exact hkind
  · exact Nat.ne_of_lt (Nat.lt_succ_self dest)
  · intro i hi t ht
    obtain ⟨-, rfl⟩ := hcases i hi t ht
    exact ⟨hnew.size_le, hnew.lt_size⟩
  · intro i hi t ht
    obtain ⟨rfl, rfl⟩ := hcases i hi t ht
    exact ⟨hnew.isTemp, hnew.types_eq, hnew.constant_eq⟩
  · intro l hl
    exact absurd hl (hlabel l)

/-- A new temp stays what it is while nothing but instructions is added. -/
theorem NewTemp.of_extends {f f' f'' : Function} {t : OperandId} {types : TypeSet}
    (h : NewTemp f' f'' t types) (he : f.Extends f' insts) :
  NewTemp f f'' t types
  := ⟨Nat.le_trans he.size_le h.size_le, h.lt_size, h.isTemp, h.types_eq, h.constant_eq⟩

/-- The emission of an operation that makes one request `inst` and then pushes its result from the
return location. -/
theorem emission_of_pushResult {inst : Inst} {st : List OperandId}
    (h : (Lowering.emit { s with stack := st } inst).pushResult = .ok s')
    (hshape : ∀ operand dest dest', operation.emits operand dest dest' s.stack = some ([inst] ++ [.assign dest operand], dest :: st))
    (hkind : operation.operandKind? = some .retval) (hdefs : inst.defs = []) :
  ∃ operand dest dest' insts, Emission s operation s' operand dest dest' insts
  := by
  unfold pushResult at h
  cases hr : (Lowering.emit { s with stack := st } inst).operandFor .retval with
  | error e =>
    rw [hr] at h
    cases h
  | ok p =>
    obtain ⟨result, s₁⟩ := p
    rw [hr] at h
    cases h
    obtain ⟨hstack, hext, hlt, hk⟩ := operandFor_spec hr
    obtain ⟨hstack', hext', hnew⟩ := pushAssign_spec s₁ result
    have hbefore : s.func.Extends s₁.func ([inst] ++ []) := (extends_push s.func inst).trans hext
    have hemission : Emission s operation (s₁.pushAssign result).2 result (s₁.pushAssign result).1
        ((s₁.pushAssign result).1 + 1) ([inst] ++ [.assign (s₁.pushAssign result).1 result]) := by
      apply emission_of_newTemp
      · rw [hstack', hstack]
        apply hshape
      · exact hbefore.trans hext'
      · intro i hi
        rw [List.mem_singleton] at hi
        rw [hi, hdefs]
      · rfl
      · exact hnew.of_extends hbefore
      · intro kind hkind'
        rw [hkind] at hkind'
        cases hkind'
        constructor
        · exact Nat.lt_of_lt_of_le hlt hext'.size_le
        · rw [hext'.kind_eq hlt, hk]
      · rintro l rfl
        cases hkind
    exact ⟨_, _, _, _, hemission⟩

/-- A load assigns what it loads to a new temp. -/
theorem emission_load {source : OperandKind} (h : s.step u (.load source) = .ok s') :
  ∃ operand dest dest' insts, Emission s (.load source) s' operand dest dest' insts
  := by
  unfold step at h
  simp only at h
  cases hr : s.operandFor source with
  | error e =>
    rw [hr] at h
    cases h
  | ok p =>
    obtain ⟨src, s₁⟩ := p
    rw [hr] at h
    obtain ⟨hstack, hext, hlt, hk⟩ := operandFor_spec hr
    obtain ⟨hstack', hext', hnew⟩ := pushAssign_spec s₁ src
    -- Whatever is noted about the temp, the step is the assignment of the source to it.
    have hemission : ∀ func : Function, s₁.func.Extends func [.assign (s₁.pushAssign src).1 src] →
        NewTemp s₁.func func (s₁.pushAssign src).1 .empty →
        Emission s (.load source) ⟨func, (s₁.pushAssign src).2.stack⟩ src (s₁.pushAssign src).1
          ((s₁.pushAssign src).1 + 1) ([] ++ [.assign (s₁.pushAssign src).1 src]) := by
      intro func hfunc htemp
      apply emission_of_newTemp
      · rw [hstack', hstack]
        rfl
      · exact hext.trans hfunc
      · intro i hi
        cases hi
      · rfl
      · exact htemp.of_extends hext
      · rintro kind ⟨rfl⟩
        constructor
        · exact Nat.lt_of_lt_of_le hlt hfunc.size_le
        · rw [hfunc.kind_eq hlt, hk]
      · intro l hl
        cases hl
    cases source with
    | var n =>
      cases h
      have hvar : s₁.func.isVar src = true := isVar_iff.mpr ⟨n, hk⟩
      obtain ⟨he, hn⟩ := pushAssign_loaded_spec s₁ hlt hvar
      exact ⟨_, _, _, _, hemission _ he hn⟩
    | temp n | global n | cell n | contents n | function n | const c | retval =>
      cases h
      exact ⟨_, _, _, _, hemission _ hext' hnew⟩

/-- A store takes a value from the stack and stores it. -/
theorem emission_store {dest : OperandKind} (h : s.step u (.store dest) = .ok s') :
  ∃ operand d d' insts, Emission s (.store dest) s' operand d d' insts
  := by
  unfold step at h
  cases hst : s.stack with
  | nil =>
    rw [hst] at h
    cases h
  | cons src stack =>
    rw [hst] at h
    simp only at h
    cases hr : Lowering.operandFor { s with stack } dest with
    | error e =>
      rw [hr] at h
      cases h
    | ok p =>
      obtain ⟨id, s₁⟩ := p
      rw [hr] at h
      cases h
      obtain ⟨hstack, hext, hlt, hk⟩ := operandFor_spec hr
      refine ⟨id, 0, 1, [.store id src], ?_⟩
      constructor
      · rw [hst]
        simp only [Operation.emits, emit, hstack]
      · exact hext.trans (extends_push _ _)
      · rintro kind ⟨rfl⟩
        exact ⟨hlt, hk⟩
      · exact Nat.zero_ne_one
      · simp [Inst.defs]
      · simp [Inst.defs]
      · intro l hl
        cases hl

/-- The assertions in front of a binary operation are added to the code, in order. -/
theorem func_guardBinary (s : Lowering) (op : BinOp) (lhs rhs : OperandId) :
  (s.guardBinary op lhs rhs).func = ((op.guards lhs rhs).map .guard).foldl Function.push s.func
  := by
  unfold guardBinary BinOp.guards
  cases op.demands? with
  | none => rfl
  | some kind =>
    by_cases hdiv : op = .div
    · simp [hdiv, emit, Inst.guard]
    · simp [hdiv, emit, Inst.guard]

/-- The assertions in front of a binary operation leave the stack as it is. -/
theorem stack_guardBinary (s : Lowering) (op : BinOp) (lhs rhs : OperandId) :
  (s.guardBinary op lhs rhs).stack = s.stack
  := by
  unfold guardBinary
  cases op.demands? with
  | none => rfl
  | some kind =>
    by_cases hdiv : op = .div
    · simp [hdiv, emit]
    · simp [hdiv, emit]

/-- An operation that guards its operands and then fills a temp with its result. -/
theorem emission_of_result {s₁ : Lowering} (insts : List Inst) (last : OperandId → Inst)
    {types : TypeSet} (h : (s₁.pushTemp types).2.emit (last (s₁.pushTemp types).1) = s')
    (hfunc : s₁.func = insts.foldl Function.push s.func) (hdefs : ∀ i ∈ insts, i.defs = [])
    (hlast : ∀ t, (last t).defs = [t] ∧ (last t).resultTypes = types)
    (hshape : ∀ operand dest dest', operation.emits operand dest dest' s.stack = some (insts ++ [last dest], dest :: s₁.stack))
    (hkind : operation.operandKind? = none) (hlabel : ∀ l, operation ≠ .label l) :
  ∃ operand dest dest' insts, Emission s operation s' operand dest dest' insts
  := by
  have hbefore : s.func.Extends s₁.func insts := by
    rw [hfunc]
    apply extends_pushAll
  have hnew := newTemp_addOperand (f := s₁.func) (o := tempOf s₁.func types) rfl rfl
  have hext : s₁.func.Extends ((s₁.func.addOperand (tempOf s₁.func types)).2.push
      (last s₁.func.operands.size)) ([] ++ [last s₁.func.operands.size]) :=
    (extends_addOperand (admissible_temp types)).trans (extends_push _ _)
  rw [pushTemp_eq] at h
  subst h
  refine ⟨0, s₁.func.operands.size, s₁.func.operands.size + 1,
    insts ++ [last s₁.func.operands.size], ?_⟩
  apply emission_of_newTemp
  · apply hshape
  · exact hbefore.trans hext
  · exact hdefs
  · exact (hlast _).1
  · rw [(hlast _).2]
    exact (hnew.push _).of_extends hbefore
  · intro kind hk
    rw [hkind] at hk
    cases hk
  · exact hlabel

/-- A duplication forks the value on top of the stack into two new temps. -/
theorem emission_dup (h : s.step u .dup = .ok s') :
  ∃ operand dest dest' insts, Emission s .dup s' operand dest dest' insts
  := by
  unfold step at h
  cases hst : s.stack with
  | nil =>
    rw [hst] at h
    cases h
  | cons src stack =>
    rw [hst] at h
    simp only [pushTemp_eq] at h
    cases h
    obtain ⟨he₁, hlt₁, hk₁⟩ := addOperand_spec (admissible_temp (f := s.func) .empty)
    have hnew₁ := newTemp_addOperand (f := s.func) (o := tempOf s.func .empty) rfl rfl
    generalize hf₁ : (s.func.addOperand (tempOf s.func .empty)).2 = f₁ at *
    have he₁ : s.func.Extends f₁ [] := hf₁ ▸ he₁
    have he₂ : f₁.Extends (f₁.addOperand (tempOf f₁ .empty)).2 [] :=
      extends_addOperand (admissible_temp .empty)
    have hnew₂ := newTemp_addOperand (f := f₁) (o := tempOf f₁ .empty) rfl rfl
    have hold := he₂.operand_eq s.func.operands.size hnew₁.lt_size
    refine ⟨0, s.func.operands.size, f₁.operands.size,
      [.fork src s.func.operands.size f₁.operands.size], ?_⟩
    constructor
    · rw [hst]
      rfl
    · exact (he₁.trans he₂).trans (extends_push _ _)
    · intro kind hk
      cases hk
    · exact Nat.ne_of_lt hnew₁.lt_size
    · intro i hi t ht
      rw [List.mem_singleton] at hi
      subst hi
      simp only [Inst.defs, List.mem_cons, List.not_mem_nil, or_false] at ht
      rcases ht with rfl | rfl
      · exact ⟨Nat.le_refl _, Nat.lt_of_lt_of_le hnew₁.lt_size he₂.size_le⟩
      · exact ⟨he₁.size_le, hnew₂.lt_size⟩
    · intro i hi t ht
      rw [List.mem_singleton] at hi
      subst hi
      simp only [Inst.defs, List.mem_cons, List.not_mem_nil, or_false] at ht
      rcases ht with rfl | rfl
      · have h₁ := hnew₁.isTemp
        have h₂ := hnew₁.types_eq
        have h₃ := hnew₁.constant_eq
        unfold Function.isTemp at h₁
        rw [← hold] at h₁ h₂ h₃
        exact ⟨h₁, h₂, h₃⟩
      · exact ⟨hnew₂.isTemp, hnew₂.types_eq, hnew₂.constant_eq⟩
    · intro l hl
      cases hl

/-- A binary operation guards its operands and fills a temp. -/
theorem emission_binary {op : BinOp} (h : s.step u (.binary op) = .ok s') :
  ∃ operand dest dest' insts, Emission s (.binary op) s' operand dest dest' insts
  := by
  obtain ⟨func, - | ⟨rhs, - | ⟨lhs, st⟩⟩⟩ := s
  · cases h
  · cases h
  simp only [step] at h
  apply emission_of_result ((op.guards lhs rhs).map .guard) (fun t => .binary op t lhs rhs)
    (Except.ok.inj h)
  · apply func_guardBinary
  · intro i hi
    obtain ⟨p, -, rfl⟩ := List.mem_map.mp hi
    rfl
  · intro t
    exact ⟨rfl, rfl⟩
  · intros
    rw [stack_guardBinary]
    rfl
  · rfl
  · intro l hl
    cases hl

/-- A unary operation guards its operand and fills a temp. -/
theorem emission_unary {op : UnOp} (h : s.step u (.unary op) = .ok s') :
  ∃ operand dest dest' insts, Emission s (.unary op) s' operand dest dest' insts
  := by
  obtain ⟨func, - | ⟨src, st⟩⟩ := s
  · cases h
  simp only [step] at h
  apply emission_of_result [.assertion op.demands src] (fun t => .unary op t src) (Except.ok.inj h)
  · rfl
  · intro i hi
    rw [List.mem_singleton] at hi
    rw [hi]
    rfl
  · intro t
    exact ⟨rfl, rfl⟩
  · intros
    rfl
  · rfl
  · intro l hl
    cases hl

/-- A label is added if it is not there yet. -/
theorem emission_label {l : Label} (h : s.step u (.label l) = .ok s') :
  ∃ operand dest dest' insts, Emission s (.label l) s' operand dest dest' insts
  := by
  simp only [step] at h
  split at h
  case isTrue hold => cases h
  case isFalse hnew =>
    cases h
    refine ⟨_, _, _, [.label l], emission_of_pushAll rfl rfl rfl ?_ ?_⟩
    · simp [Inst.defs]
    · rintro k ⟨rfl⟩
      simpa using hnew

/-! ### Any operation -/

/-- An operation whose result comes from the return location emits its instruction, and then takes
the result. -/
theorem step_request (hrequest : operation.isRequest = true) (s : Lowering) (u : CompileError) :
  s.step u operation = (operation.request? s.stack).elim (.error u) fun made =>
    (Lowering.emit { s with stack := made.2 } made.1).pushResult
  := by
  obtain ⟨func, stack⟩ := s
  cases operation with
  | allocRecord => rfl
  | fieldLoad n => cases stack <;> rfl
  | indexLoad => rcases stack with - | ⟨index, - | ⟨record, st⟩⟩ <;> rfl
  | allocClosure n | call n =>
    rcases stack with - | ⟨first, st⟩
    · rfl
    by_cases hn : n ≤ st.length
    · simp [step, Operation.request?, hn]
    · simp [step, Operation.request?, hn]
  | _ => cases hrequest

/-- An operation whose result comes from the return location emits its instruction and the
assignment of the result to a new temp. -/
theorem emission_request (hrequest : operation.isRequest = true) (h : s.step u operation = .ok s') :
  ∃ operand dest dest' insts, Emission s operation s' operand dest dest' insts
  := by
  rw [step_request hrequest] at h
  cases hmade : operation.request? s.stack with
  | none =>
    rw [hmade] at h
    cases h
  | some made =>
    rw [hmade] at h
    apply emission_of_pushResult h
    · intro operand dest dest'
      rw [Operation.emits_request hrequest, hmade]
      rfl
    · cases operation with
      | allocRecord | fieldLoad n | indexLoad | allocClosure n | call n => rfl
      | _ => cases hrequest
    · exact Operation.defs_of_request? hmade

/-- An operation without operands of its own adds what it emits. -/
theorem step_plain (hplain : operation.isPlain = true) (s : Lowering) (u : CompileError)
    (operand dest dest' : OperandId) :
  s.step u operation = (operation.emits operand dest dest' s.stack).elim (.error u) fun made =>
    .ok ⟨made.1.foldl Function.push s.func, made.2⟩
  := by
  obtain ⟨func, stack⟩ := s
  cases operation with
  | fieldStore n => rcases stack with - | ⟨v, - | ⟨record, st⟩⟩ <;> rfl
  | indexStore => rcases stack with - | ⟨v, - | ⟨index, - | ⟨record, st⟩⟩⟩ <;> rfl
  | swap => rcases stack with - | ⟨v, - | ⟨w, st⟩⟩ <;> rfl
  | ret | branch l | pop => cases stack <;> rfl
  | goto l | collect | throwUninitialized n => rfl
  | _ => cases hplain

/-- An operation without operands of its own emits instructions, and no temp. -/
theorem emission_plain (hplain : operation.isPlain = true) (h : s.step u operation = .ok s') :
  ∃ operand dest dest' insts, Emission s operation s' operand dest dest' insts
  := by
  cases hmade : operation.emits 0 0 1 s.stack with
  | none =>
    rw [step_plain hplain s u 0 0 1, hmade] at h
    cases h
  | some made =>
    obtain ⟨insts, st⟩ := made
    rw [step_plain hplain s u 0 0 1, hmade] at h
    cases h
    refine ⟨0, 0, 1, insts, emission_of_pushAll rfl hmade ?_ ?_ ?_⟩
    · cases operation with
      | load | store | allocRecord | fieldLoad | indexLoad | allocClosure | call => cases hplain
      | _ => rfl
    · exact Operation.defs_plain hplain (Operation.emits_eq_some.mp hmade)
    · rintro l rfl
      cases hplain

/-- One step of lowering adds the instructions of its operation. -/
theorem step_emits (h : s.step u operation = .ok s') :
  ∃ operand dest dest' insts, Emission s operation s' operand dest dest' insts
  := by
  cases operation with
  | load source => exact emission_load h
  | store dest => exact emission_store h
  | dup => exact emission_dup h
  | binary op => exact emission_binary h
  | unary op => exact emission_unary h
  | label l => exact emission_label h
  | allocRecord | fieldLoad n | indexLoad | allocClosure n | call n => exact emission_request rfl h
  | _ => exact emission_plain rfl h

end Lowering

end StackCompiler.IR
