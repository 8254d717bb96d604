import StackCompiler.IR.Lowering
import StackCompiler.Proofs.Code.Positions

/-!
# Functions that grow

Lowering only adds operands and instructions.  `Function.Extends` says so of two functions
and lists the instructions added; `Indexed`, `Numbered` and `Known` are what the additions
keep true of the label table and of the operand table.
-/

namespace StackCompiler.IR

open Bytecode (Constant)

namespace Function

variable {f f' f'' : Function}

/-- The label table is that of the code. -/
def Indexed (f : Function) : Prop := f.labels = labelsOf f.code.toList

/-- What is known about operands before any pass has run. -/
structure Known (f : Function) : Prop where
  constant_eq : ∀ id c, id < f.operands.size → (f.operand id).constant = some c → f.kind id = .const c
  const_constant : ∀ id c, id < f.operands.size → f.kind id = .const c →
    (f.operand id).constant = some c
  var_types : ∀ id n, id < f.operands.size → f.kind id = .var n →
    (f.operand id).types = if n < f.parameterCount then .any else .empty
  loaded_var : ∀ id v, id < f.operands.size → (f.operand id).loadedFrom = some v →
    v < f.operands.size ∧ f.isVar v = true

/-- A function with operands and instructions added. -/
structure Extends (f f' : Function) (insts : List Inst) : Prop where
  size_le : f.operands.size ≤ f'.operands.size
  operand_eq : ∀ id, id < f.operands.size → f'.operand id = f.operand id
  code_eq : f'.code.toList = f.code.toList ++ insts
  pending_eq : f'.pending = f.pending
  parameterCount_eq : f'.parameterCount = f.parameterCount
  indexed : f.Indexed → f'.Indexed
  numbered : f.Numbered → f'.Numbered
  known : f.Known → f'.Known

namespace Extends

theorem refl (f : Function) :
  f.Extends f []
  := by
  constructor <;> simp

/-- Extending a function twice adds the instructions of the one and then those of the other. -/
theorem trans {a b : List Inst} (h : f.Extends f' a) (h' : f'.Extends f'' b) :
  f.Extends f'' (a ++ b)
  := by
  constructor
  · exact Nat.le_trans h.size_le h'.size_le
  · intro id hid
    rw [h'.operand_eq id (Nat.lt_of_lt_of_le hid h.size_le), h.operand_eq id hid]
  · rw [h'.code_eq, h.code_eq, List.append_assoc]
  · rw [h'.pending_eq, h.pending_eq]
  · rw [h'.parameterCount_eq, h.parameterCount_eq]
  · exact fun i => h'.indexed (h.indexed i)
  · exact fun i => h'.numbered (h.numbered i)
  · exact fun i => h'.known (h.known i)

theorem kind_eq {insts : List Inst} (h : f.Extends f' insts) {id : OperandId}
    (hid : id < f.operands.size) :
  f'.kind id = f.kind id
  := by
  unfold kind
  rw [h.operand_eq id hid]

theorem size_eq {insts : List Inst} (h : f.Extends f' insts) :
  f'.size = f.size + insts.length
  := by
  have := congrArg List.length h.code_eq
  simpa [size] using this

/-- The new instructions stand after the old ones. -/
theorem getElem?_code {insts : List Inst} (h : f.Extends f' insts) (i : Nat) :
  f'.code[f.size + i]? = insts[i]?
  := by
  rw [← Array.getElem?_toList, h.code_eq, List.getElem?_append_right (by simp [size])]
  simp [size]

/-- The code of a function is at the start of that of its extension. -/
theorem getElem?_code_of_lt {insts : List Inst} (h : f.Extends f' insts) {pos : Nat}
    (hpos : pos < f.size) :
  f'.code[pos]? = f.code[pos]?
  := by
  rw [← Array.getElem?_toList, h.code_eq, List.getElem?_append_left (by simpa [size] using hpos),
    Array.getElem?_toList]

section

variable {insts : List Inst} {p : Nat} {inst : Inst}

/-- The instructions of a function are fetched at their positions in its extension. -/
theorem fetch_old (h : f.Extends f' insts) (hp : f.pending = []) (hf : f.fetch p = some inst) :
  f'.fetch p = some inst
  := by
  rw [fetch_of_pending_nil (h.pending_eq.trans hp), h.getElem?_code_of_lt (lt_size_of_fetch hf),
    ← fetch_of_pending_nil hp, hf]

/-- The instructions that are added are fetched behind those of the function, in order. -/
theorem fetch_new (h : f.Extends f' insts) (hp : f.pending = []) {j : Nat}
    (hj : insts[j]? = some inst) :
  f'.fetch (f.size + j) = some inst
  := by
  rw [fetch_of_pending_nil (h.pending_eq.trans hp), h.getElem?_code, hj]

/-- An instruction was there before or is one of the new ones. -/
theorem fetch_cases (h : f.Extends f' insts) (hp : f.pending = []) (hf : f'.fetch p = some inst) :
  (p < f.size ∧ f.fetch p = some inst) ∨ ∃ j, p = f.size + j ∧ insts[j]? = some inst
  := by
  rw [fetch_of_pending_nil (h.pending_eq.trans hp)] at hf
  rcases Nat.lt_or_ge p f.size with hlt | hge
  · left
    rw [h.getElem?_code_of_lt hlt] at hf
    exact ⟨hlt, (fetch_of_pending_nil hp p).trans hf⟩
  · right
    refine ⟨p - f.size, (Nat.add_sub_cancel' hge).symm, ?_⟩
    rw [← h.getElem?_code, Nat.add_sub_cancel' hge, hf]

end

end Extends

/-! ### Single additions -/

/-- Adding an instruction extends a function by it. -/
theorem extends_push (f : Function) (inst : Inst) :
  f.Extends (f.push inst) [inst]
  := by
  constructor
  · exact Nat.le_refl _
  · intro id _
    rfl
  · simp [push]
  · rfl
  · rfl
  · intro h
    unfold Indexed at h ⊢
    simp only [push, Array.toList_push]
    rw [labelsOf_append_singleton, ← h]
    cases inst.label? <;> simp
  · rintro ⟨h₁, h₂, h₃⟩
    exact ⟨h₁, h₂, h₃⟩
  · rintro ⟨h₁, h₂, h₃, h₄⟩
    exact ⟨h₁, h₂, h₃, h₄⟩

/-- A new operand is acceptable: it does not stand for what another one stands for, and
no more is known about it than its kind tells. -/
structure Admissible (f : Function) (o : Operand) : Prop where
  temp : ∀ n, o.kind = .temp n → n = f.tempCount
  var : ∀ n, o.kind = .var n → ∀ id, id < f.operands.size → f.kind id ≠ .var n
  constant_eq : ∀ c, o.constant = some c → o.kind = .const c
  const_constant : ∀ c, o.kind = .const c → o.constant = some c
  var_types : ∀ n, o.kind = .var n → o.types = if n < f.parameterCount then .any else .empty
  loaded_var : ∀ v, o.loadedFrom = some v → v < f.operands.size ∧ f.isVar v = true

/-- An acceptable operand that is added keeps what is known about operands. -/
theorem Known.addOperand {o : Operand} (h : f.Known) (ho : f.Admissible o) :
  (f.addOperand o).2.Known
  := by
  have hold : ∀ id, id < f.operands.size → (f.addOperand o).2.kind id = f.kind id := fun id hid => by
    unfold kind
    rw [operand_addOperand_of_lt o hid]
  have hnew : (f.addOperand o).2.kind f.operands.size = o.kind := by
    unfold kind
    rw [operand_addOperand_self]
  have hvar : ∀ v, v < f.operands.size ∧ f.isVar v = true →
      v < (f.addOperand o).2.operands.size ∧ (f.addOperand o).2.isVar v = true := by
    rintro v ⟨hv, hvar⟩
    constructor
    · rw [size_addOperand]
      omega
    · rw [isVar_congr (hold v hv)]
      apply hvar
  constructor
  · intro id c hid hc
    rcases lt_addOperand hid with hlt | rfl
    · rw [operand_addOperand_of_lt o hlt] at hc
      rw [hold id hlt]
      exact h.constant_eq id c hlt hc
    · rw [operand_addOperand_self] at hc
      rw [hnew]
      exact ho.constant_eq c hc
  · intro id c hid hk
    rcases lt_addOperand hid with hlt | rfl
    · rw [hold id hlt] at hk
      rw [operand_addOperand_of_lt o hlt]
      exact h.const_constant id c hlt hk
    · rw [hnew] at hk
      rw [operand_addOperand_self]
      exact ho.const_constant c hk
  · intro id n hid hk
    rcases lt_addOperand hid with hlt | rfl
    · rw [hold id hlt] at hk
      rw [operand_addOperand_of_lt o hlt]
      exact h.var_types id n hlt hk
    · rw [hnew] at hk
      rw [operand_addOperand_self]
      exact ho.var_types n hk
  · intro id v hid hv
    apply hvar
    rcases lt_addOperand hid with hlt | rfl
    · rw [operand_addOperand_of_lt o hlt] at hv
      exact h.loaded_var id v hlt hv
    · rw [operand_addOperand_self] at hv
      exact ho.loaded_var v hv

/-- Adding an acceptable operand extends a function by no instructions. -/
theorem extends_addOperand {o : Operand} (ho : f.Admissible o) :
  f.Extends (f.addOperand o).2 []
  := by
  constructor
  · rw [size_addOperand]
    omega
  · intro id hid
    exact operand_addOperand_of_lt o hid
  · simp [addOperand]
  · rfl
  · rfl
  · exact fun h => h
  · exact fun h => h.addOperand ho.temp ho.var
  · exact fun h => h.addOperand ho

theorem admissible_temp (types : TypeSet) :
  f.Admissible { Operand.ofKind (.temp f.tempCount) with types }
  := by
  constructor <;> simp [Operand.ofKind]

theorem admissible_const (c : Constant) :
  f.Admissible (.ofKind (.const c))
  := by
  constructor <;> simp [Operand.ofKind]

theorem admissible_location {kind : OperandKind} (h : kind.isLocation = true) :
  f.Admissible (.ofKind kind)
  := by
  cases kind <;> simp [OperandKind.isLocation] at h <;> constructor <;> simp [Operand.ofKind]

/-- A variable that is not in the table yet is acceptable, with any type if it is a parameter. -/
theorem admissible_var {n : Nat} (h : f.find? (.var n) = none) :
  f.Admissible (if n < f.parameterCount then { Operand.ofKind (.var n) with types := .any }
    else .ofKind (.var n))
  := by
  have hnone : ∀ id, id < f.operands.size → f.kind id ≠ .var n := fun id hid => find?_eq_none h hid
  by_cases hn : n < f.parameterCount
  · rw [if_pos hn]
    have hvar : ∀ m, OperandKind.var n = .var m → m = n := fun m hm => (OperandKind.var.inj hm).symm
    refine ⟨nofun, fun m hm => ?_, nofun, nofun, fun m hm => ?_, nofun⟩
    · rw [hvar m hm]
      exact hnone
    · rw [hvar m hm, if_pos hn]
  · rw [if_neg hn]
    have hvar : ∀ m, OperandKind.var n = .var m → m = n := fun m hm => (OperandKind.var.inj hm).symm
    refine ⟨nofun, fun m hm => ?_, nofun, nofun, fun m hm => ?_, nofun⟩
    · rw [hvar m hm]
      exact hnone
    · rw [hvar m hm, if_neg hn]
      rfl

end Function

end StackCompiler.IR
