import StackCompiler.IR.Function

/-!
# Operand tables

What adding and changing operands does to the operands of a function.  In a table that is
`Numbered`, no two temps have one number and no two operands stand for one variable.
-/

namespace StackCompiler.IR

namespace Function

variable {f : Function} {id : OperandId}

/-- What an operand of a function is. -/
def kind (f : Function) (id : OperandId) : OperandKind := (f.operand id).kind

theorem isTemp_iff :
  f.isTemp id = true ↔ ∃ n, f.kind id = .temp n
  := by
  unfold isTemp Operand.isTemp kind
  cases (f.operand id).kind <;> simp

theorem isVar_iff :
  f.isVar id = true ↔ ∃ n, f.kind id = .var n
  := by
  unfold isVar Operand.isVar kind
  cases (f.operand id).kind <;> simp

/-- A temp is no variable. -/
theorem isVar_eq_false (h : f.isTemp id = true) :
  f.isVar id = false
  := by
  obtain ⟨n, hn⟩ := isTemp_iff.mp h
  have hn' : (f.operand id).kind = .temp n := hn
  unfold isVar Operand.isVar
  rw [hn']

theorem isVar_of_size_le (h : f.operands.size ≤ id) :
  f.isVar id = false
  := by
  unfold isVar operand
  rw [Array.getD_eq_getD_getElem?, Array.getElem?_eq_none h]
  rfl

theorem isTemp_congr {f g : Function} (h : g.kind id = f.kind id) :
  g.isTemp id = f.isTemp id
  := by
  unfold kind at h
  simp only [isTemp, Operand.isTemp, h]

theorem isVar_congr {f g : Function} (h : g.kind id = f.kind id) :
  g.isVar id = f.isVar id
  := by
  unfold kind at h
  simp only [isVar, Operand.isVar, h]

/-! ### Adding and changing operands -/

@[simp]
theorem fst_addOperand (o : Operand) :
  (f.addOperand o).1 = f.operands.size
  := rfl

@[simp]
theorem size_addOperand (o : Operand) :
  (f.addOperand o).2.operands.size = f.operands.size + 1
  := Array.size_push ..

theorem operand_addOperand (o : Operand) (id : OperandId) :
  (f.addOperand o).2.operand id = if id = f.operands.size then o else f.operand id
  := by
  simp only [operand, addOperand, Array.getD_eq_getD_getElem?, Array.getElem?_push]
  split <;> rfl

@[simp]
theorem operand_addOperand_self (o : Operand) :
  (f.addOperand o).2.operand f.operands.size = o
  := by
  rw [operand_addOperand, if_pos rfl]

theorem operand_addOperand_of_lt (o : Operand) (h : id < f.operands.size) :
  (f.addOperand o).2.operand id = f.operand id
  := by
  rw [operand_addOperand, if_neg (Nat.ne_of_lt h)]

@[simp]
theorem size_modify (id : OperandId) (change : Operand → Operand) :
  (f.modify id change).operands.size = f.operands.size
  := Array.size_modify

/-- Changing an operand of the table changes this one, and no other. -/
theorem operand_modify (id other : OperandId) (change : Operand → Operand) :
  (f.modify id change).operand other
    = if other = id ∧ id < f.operands.size then change (f.operand id) else f.operand other
  := by
  simp only [operand, modify, Array.getD_eq_getD_getElem?, Array.getElem?_modify]
  by_cases h : id = other
  · subst h
    by_cases hlt : id < f.operands.size
    · simp [hlt]
    · simp [hlt]
  · have hne : ¬ other = id := fun e => h e.symm
    simp [h, hne]

theorem operand_modify_of_ne {other : OperandId} (change : Operand → Operand) (h : other ≠ id) :
  (f.modify id change).operand other = f.operand other
  := by
  rw [operand_modify, if_neg fun e => h e.1]

theorem operand_modify_self (change : Operand → Operand) (h : id < f.operands.size) :
  (f.modify id change).operand id = change (f.operand id)
  := by
  rw [operand_modify, if_pos ⟨rfl, h⟩]

/-- A change that leaves the kinds of operands alone. -/
theorem kind_modify (id other : OperandId) {change : Operand → Operand}
    (h : ∀ o, (change o).kind = o.kind) :
  (f.modify id change).kind other = f.kind other
  := by
  unfold kind
  rw [operand_modify]
  split
  · rename_i e
    rw [h, e.1]
  · rfl

@[simp]
theorem kind_addTypes (id other : OperandId) (types : TypeSet) :
  (f.addTypes id types).kind other = f.kind other
  := by
  apply kind_modify
  intro o
  rfl

@[simp]
theorem size_addTypes (id : OperandId) (types : TypeSet) :
  (f.addTypes id types).operands.size = f.operands.size
  := size_modify ..

/-- Adding an operand and changing what is known about it is adding the changed one. -/
theorem modify_addOperand (o : Operand) (change : Operand → Operand) :
  (f.addOperand o).2.modify f.operands.size change = (f.addOperand (change o)).2
  := by
  have h : (f.operands.push o).modify f.operands.size change = f.operands.push (change o) := by
    apply Array.ext_getElem?
    intro i
    rw [Array.getElem?_modify, Array.getElem?_push, Array.getElem?_push]
    by_cases hi : i = f.operands.size
    · subst hi
      simp
    · have : ¬ f.operands.size = i := fun e => hi e.symm
      simp [hi, this]
  unfold modify addOperand
  simp only [h]

theorem kind_ofKind (kind : OperandKind) :
  (Operand.ofKind kind).kind = kind
  := by
  cases kind <;> rfl

/-- An operand that is found has the kind that was looked for, and is in the table. -/
theorem find?_eq_some {kind : OperandKind} (h : f.find? kind = some id) :
  id < f.operands.size ∧ f.kind id = kind
  := by
  obtain ⟨hlt, hk, -⟩ := Array.findIdx?_eq_some_iff_getElem.mp h
  constructor
  · apply hlt
  · unfold Function.kind operand
    rw [Array.getD_eq_getD_getElem?, Array.getElem?_eq_getElem hlt]
    apply of_decide_eq_true hk

/-- If no operand is found, none of the table has the kind that was looked for. -/
theorem find?_eq_none {kind : OperandKind} (h : f.find? kind = none) (hid : id < f.operands.size) :
  f.kind id ≠ kind
  := by
  have hall := Array.findIdx?_eq_none_iff.mp h
  intro e
  unfold Function.kind operand at e
  rw [Array.getD_eq_getD_getElem?, Array.getElem?_eq_getElem hid] at e
  have := hall _ (Array.getElem_mem hid)
  simp_all

/-! ### Numbering -/

/-- No two temps have one number and no two operands stand for one variable. -/
structure Numbered (f : Function) : Prop where
  temp_lt : ∀ id n, id < f.operands.size → f.kind id = .temp n → n < f.tempCount
  temp_inj : ∀ i j n, i < f.operands.size → j < f.operands.size →
    f.kind i = .temp n → f.kind j = .temp n → i = j
  var_inj : ∀ i j n, i < f.operands.size → j < f.operands.size →
    f.kind i = .var n → f.kind j = .var n → i = j

theorem tempCount_addOperand (o : Operand) :
  (f.addOperand o).2.tempCount = f.tempCount + if o.isTemp then 1 else 0
  := by
  simp only [tempCount, addOperand, Array.countP_push]

/-- The operands of the longer table are those of the table, and the one that was added. -/
theorem lt_addOperand {o : Operand} (h : id < (f.addOperand o).2.operands.size) :
  id < f.operands.size ∨ id = f.operands.size
  := by
  rw [size_addOperand] at h
  apply Nat.lt_or_eq_of_le
  apply Nat.le_of_lt_succ h

/-- A table stays numbered when a new temp has the next number and a new variable is not
there yet. -/
theorem Numbered.addOperand {o : Operand} (h : f.Numbered)
    (htemp : ∀ n, o.kind = .temp n → n = f.tempCount)
    (hvar : ∀ n, o.kind = .var n → ∀ id, id < f.operands.size → f.kind id ≠ .var n) :
  (f.addOperand o).2.Numbered
  := by
  have hcount := tempCount_addOperand (f := f) o
  have hold : ∀ id, id < f.operands.size → (f.addOperand o).2.kind id = f.kind id := fun id hid => by
    unfold kind
    rw [operand_addOperand_of_lt o hid]
  have hnew : (f.addOperand o).2.kind f.operands.size = o.kind := by
    unfold kind
    rw [operand_addOperand_self]
  constructor
  · intro id n hid hk
    rcases lt_addOperand hid with hlt | rfl
    · rw [hold id hlt] at hk
      have := h.temp_lt id n hlt hk
      omega
    · rw [hnew] at hk
      have ht : o.isTemp = true := by simp [Operand.isTemp, hk]
      rw [hcount, if_pos ht, htemp n hk]
      omega
  · intro i j n hi hj hki hkj
    rcases lt_addOperand hi with hi | rfl <;> rcases lt_addOperand hj with hj | rfl
    · rw [hold i hi] at hki
      rw [hold j hj] at hkj
      exact h.temp_inj i j n hi hj hki hkj
    · rw [hold i hi] at hki
      rw [hnew] at hkj
      have := h.temp_lt i n hi hki
      have := htemp n hkj
      omega
    · rw [hold j hj] at hkj
      rw [hnew] at hki
      have := h.temp_lt j n hj hkj
      have := htemp n hki
      omega
    · rfl
  · intro i j n hi hj hki hkj
    rcases lt_addOperand hi with hi | rfl <;> rcases lt_addOperand hj with hj | rfl
    · rw [hold i hi] at hki
      rw [hold j hj] at hkj
      exact h.var_inj i j n hi hj hki hkj
    · rw [hold i hi] at hki
      rw [hnew] at hkj
      exact absurd hki (hvar n hkj i hi)
    · rw [hold j hj] at hkj
      rw [hnew] at hki
      exact absurd hkj (hvar n hki j hj)
    · rfl

end Function

end StackCompiler.IR
