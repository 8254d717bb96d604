import StackCompiler.Proofs.Passes.Edit

/-!
# Edits keep code well formed

What each change does to the instruction at every position and to the kinds of operands,
that well-formed code stays well formed, and that local code stays local.
-/

namespace StackCompiler.IR

open Bytecode (Constant)

namespace Function

variable {f f' : Function} {id : OperandId} {p : Nat} {old : Inst}

/-! ### Changes in place -/

/-- A change that leaves positions and labels where they are, and may add operands. -/
structure InPlace (f f' : Function) : Prop where
  size_eq : f'.size = f.size
  labels_eq : ∀ l, f'.labels.at? l = f.labels.at? l
  parameterCount_eq : f'.parameterCount = f.parameterCount
  operands_le : f.operands.size ≤ f'.operands.size
  kind_eq : ∀ id, id < f.operands.size → f'.kind id = f.kind id
  new_isVar : ∀ id, f.operands.size ≤ id → f'.isVar id = false
  numbered : f.Numbered → f'.Numbered
  label_iff : ∀ p l, f'.fetch p = some (.label l) ↔ f.fetch p = some (.label l)

namespace InPlace

/-- A change in place keeps which positions are joined by straight-line code, since this depends
only on where the labels are. -/
theorem straight_iff (h : f.InPlace f') {q : Nat} :
  f'.Straight q p ↔ f.Straight q p
  := by
  constructor
  · intro hs r l hr hr' hf
    exact hs r l hr hr' ((h.label_iff r l).mpr hf)
  · intro hs r l hr hr' hf
    exact hs r l hr hr' ((h.label_iff r l).mp hf)

theorem isTemp_eq (h : f.InPlace f') (hid : id < f.operands.size) :
  f'.isTemp id = f.isTemp id
  := isTemp_congr (h.kind_eq id hid)

theorem isVar_eq (h : f.InPlace f') (hid : id < f.operands.size) :
  f'.isVar id = f.isVar id
  := isVar_congr (h.kind_eq id hid)

/-- An instruction that fits a function still fits it after a change in place: its operands are
there and have their kinds. -/
theorem fits (h : f.InPlace f') {inst : Inst} (hi : inst.Fits f) :
  inst.Fits f'
  := hi.of_kind h.operands_le h.kind_eq

/-- Code stays well formed when definitions stay where they are and reads are of temps
defined before. -/
theorem wellFormed (h : f.InPlace f') (wf : f.WellFormed)
    (hfits : ∀ p i, f'.fetch p = some i → i.Fits f')
    (hdefs : ∀ p t, f'.DefinesAt p t → f.DefinesAt p t)
    (hdefined : ∀ p t, f'.ReadsAt p t → f'.isTemp t = true → ∃ q, q < p ∧ f'.DefinesAt q t) :
  f'.WellFormed
  := by
  constructor
  · exact h.numbered wf.numbered
  · exact hfits
  · intro l p
    rw [h.labels_eq, h.label_iff]
    exact wf.labels l p
  · intro p q t hp hq
    exact wf.single p q t (hdefs p t hp) (hdefs q t hq)
  · exact hdefined

end InPlace

/-- Code that is well formed, and local if the code it comes from is. -/
structure KeepsOrder (f f' : Function) : Prop where
  wellFormed : f'.WellFormed
  isLocal : f.Local → f'.Local

/-! ### Tables of operands -/

/-- Two tables with as many operands of the same kinds hold the same number of temps. -/
theorem tempCount_congr (hsize : f'.operands.size = f.operands.size)
    (hkind : ∀ id, f'.kind id = f.kind id) :
  f'.tempCount = f.tempCount
  := by
  have hmap : f'.operands.map Operand.isTemp = f.operands.map Operand.isTemp := by
    apply Array.ext
    · simpa using hsize
    · intro i hi hi'
      have := isTemp_congr (hkind i)
      simp only [Array.size_map] at hi hi'
      simpa [isTemp, operand, Array.getD, hi, hi'] using this
  have hcount : ∀ g : Function, g.tempCount = (g.operands.map Operand.isTemp).count true := by
    intro g
    unfold tempCount
    rw [Array.count, Array.countP_map]
    congr 1
    funext o
    simp
  rw [hcount, hcount, hmap]

/-- Whether temps are numbered in turn depends only on the size of the table and on the kinds of
its operands. -/
theorem Numbered.congr (h : f.Numbered) (hsize : f'.operands.size = f.operands.size)
    (hkind : ∀ id, f'.kind id = f.kind id) :
  f'.Numbered
  := by
  obtain ⟨h₁, h₂, h₃⟩ := h
  constructor <;> simp only [hsize, hkind, tempCount_congr hsize hkind]
  · exact h₁
  · exact h₂
  · exact h₃

/-! ### What single changes do -/

theorem fetch_congr (hcode : f'.code = f.code) (hpending : f'.pending = f.pending) (p : Nat) :
  f'.fetch p = f.fetch p
  := by
  unfold fetch isRemoved inst?
  rw [hcode, hpending]

theorem SameCode.fetch_eq (h : f.SameCode f') (p : Nat) :
  f'.fetch p = f.fetch p
  := fetch_congr h.code_eq h.pending_eq p

theorem SameCode.refl (f : Function) :
  f.SameCode f
  := ⟨rfl, rfl, rfl, rfl, rfl, fun _ => rfl⟩

theorem SameCode.trans {f'' : Function} (h : f.SameCode f') (h' : f'.SameCode f'') :
  f.SameCode f''
  := ⟨h'.code_eq.trans h.code_eq, h'.pending_eq.trans h.pending_eq, h'.labels_eq.trans h.labels_eq,
    h'.parameterCount_eq.trans h.parameterCount_eq, h'.size_eq.trans h.size_eq,
    fun id => (h'.kind_eq id).trans (h.kind_eq id)⟩

theorem SameCode.symm (h : f.SameCode f') :
  f'.SameCode f
  := ⟨h.code_eq.symm, h.pending_eq.symm, h.labels_eq.symm, h.parameterCount_eq.symm, h.size_eq.symm,
    fun id => (h.kind_eq id).symm⟩

/-- A change that keeps the code is a change in place. -/
theorem SameCode.inPlace (h : f.SameCode f') :
  f.InPlace f'
  := by
  constructor
  · exact congrArg Array.size h.code_eq
  · intro l
    rw [h.labels_eq]
  · exact h.parameterCount_eq
  · exact Nat.le_of_eq h.size_eq.symm
  · exact fun id _ => h.kind_eq id
  · intro id hid
    exact isVar_of_size_le (Nat.le_trans (Nat.le_of_eq h.size_eq) hid)
  · exact fun hn => hn.congr h.size_eq h.kind_eq
  · intro p l
    rw [h.fetch_eq]

/-- Two changes in place, one after the other, are a change in place. -/
theorem InPlace.trans {f'' : Function} (h : f.InPlace f') (h' : f'.InPlace f'') :
  f.InPlace f''
  := by
  constructor
  · rw [h'.size_eq, h.size_eq]
  · intro l
    rw [h'.labels_eq, h.labels_eq]
  · rw [h'.parameterCount_eq, h.parameterCount_eq]
  · exact Nat.le_trans h.operands_le h'.operands_le
  · intro id hid
    rw [h'.kind_eq id (Nat.lt_of_lt_of_le hid h.operands_le), h.kind_eq id hid]
  · intro id hid
    rcases Nat.lt_or_ge id f'.operands.size with hlt | hge
    · rw [h'.isVar_eq hlt]
      exact h.new_isVar id hid
    · exact h'.new_isVar id hge
  · exact fun hn => h'.numbered (h.numbered hn)
  · intro p l
    rw [h'.label_iff, h.label_iff]

/-- Adding an operand that is no variable, and a temp only by the next number, is a change in place.
-/
theorem inPlace_addOperand {o : Operand} (htemp : ∀ n, o.kind = .temp n → n = f.tempCount)
    (hvar : ∀ n, o.kind ≠ .var n) :
  f.InPlace (f.addOperand o).2
  := by
  constructor
  · rfl
  · exact fun _ => rfl
  · rfl
  · rw [size_addOperand]
    exact Nat.le_succ _
  · intro id hid
    unfold kind
    rw [operand_addOperand_of_lt o hid]
  · intro id hid
    rcases Nat.eq_or_lt_of_le hid with rfl | hlt
    · rw [Bool.eq_false_iff]
      intro hv
      obtain ⟨n, hn⟩ := isVar_iff.mp hv
      unfold kind at hn
      rw [operand_addOperand_self] at hn
      exact hvar n hn
    · apply isVar_of_size_le
      rw [size_addOperand]
      exact hlt
  · exact fun hn => hn.addOperand htemp fun n h => absurd h (hvar n)
  · intro p l
    rfl

/-- Something found out about an operand. -/
theorem sameCode_modify (id : OperandId) (change : Operand → Operand)
    (h : ∀ o, (change o).kind = o.kind) :
  f.SameCode (f.modify id change)
  := ⟨rfl, rfl, rfl, rfl, size_modify .., fun other => kind_modify id other h⟩

theorem sameCode_addTypes (f : Function) (id : OperandId) (types : TypeSet) :
  f.SameCode (f.addTypes id types)
  := sameCode_modify id (fun o => { o with types := o.types.union types }) fun _ => rfl

/-- Putting an instruction in the place of another is a change in place, if neither of the two is
a label. -/
theorem inPlace_replace {pos : Nat} {inst : Inst} (hfetch : f.fetch pos = some old)
    (hold : ∀ l, old ≠ .label l) (hnew : ∀ l, inst ≠ .label l) :
  f.InPlace (f.replace pos inst)
  := by
  constructor
  · exact size_replace ..
  · exact fun _ => rfl
  · rfl
  · exact Nat.le_refl _
  · exact fun _ _ => rfl
  · exact fun id hid => isVar_of_size_le hid
  · exact fun hn => hn.congr rfl fun _ => rfl
  · intro p l
    rw [fetch_replace hfetch]
    split
    · rename_i hp
      rw [hp, hfetch]
      constructor
      · intro h
        exact absurd (Option.some.inj h) (hnew l)
      · intro h
        exact absurd (Option.some.inj h) (hold l)
    · rfl

/-- A fork of which one side is kept is a fork of the same source, and an assignment to what is kept
can be put in its place. -/
theorem exists_fork {pos : Nat} {src kept dropped : OperandId}
    (h : f.fetch pos = some (.fork src kept dropped) ∨ f.fetch pos = some (.fork src dropped kept)) :
  ∃ a b, f.fetch pos = some (.fork src a b) ∧ (kept = a ∨ kept = b) ∧
    f.InPlace (f.replace pos (.assign kept src))
  := by
  rcases h with h | h
  · exact ⟨_, _, h, .inl rfl, inPlace_replace h (fun _ => nofun) fun _ => nofun⟩
  · exact ⟨_, _, h, .inr rfl, inPlace_replace h (fun _ => nofun) fun _ => nofun⟩

/-- Marking an instruction for removal is a change in place, if it is no label. -/
theorem inPlace_remove {pos : Nat} (hfetch : f.fetch pos = some old) (hold : ∀ l, old ≠ .label l) :
  f.InPlace (f.remove pos)
  := by
  constructor
  · rfl
  · exact fun _ => rfl
  · rfl
  · exact Nat.le_refl _
  · exact fun _ _ => rfl
  · exact fun id hid => isVar_of_size_le hid
  · exact fun hn => hn.congr rfl fun _ => rfl
  · intro p l
    rw [fetch_remove]
    split
    · rename_i hp
      rw [hp, hfetch]
      constructor
      · exact nofun
      · intro h
        exact absurd (Option.some.inj h) (hold l)
    · rfl

/-! ### Changes that only take away -/

/-- An instruction in the place of another that defines and reads no more temps. -/
structure Narrows (f f' : Function) (i i' : Inst) : Prop where
  fits : i'.Fits f'
  defs : ∀ t ∈ i'.defs, t ∈ i.defs
  uses : ∀ t ∈ i'.uses, f'.isTemp t = true → t ∈ i.uses

theorem InPlace.narrows_refl (h : f.InPlace f') (wf : f.WellFormed) {i : Inst} (hi : f.fetch p = some i) :
  f.Narrows f' i i
  := ⟨h.fits (wf.fits p i hi), fun _ ht => ht, fun _ ht _ => ht⟩

/-- Code keeps its order when instructions define and read no more than before, and what is
still read is still defined. -/
theorem InPlace.keepsOrder_of_narrows (h : f.InPlace f') (wf : f.WellFormed)
    (hview : ∀ p i', f'.fetch p = some i' → ∃ i, f.fetch p = some i ∧ f.Narrows f' i i')
    (hkeep : ∀ p q t, f'.ReadsAt p t → f.DefinesAt q t → f'.DefinesAt q t) :
  f.KeepsOrder f'
  := by
  have hdefs : ∀ p t, f'.DefinesAt p t → f.DefinesAt p t := by
    rintro p t ⟨i', hi', ht⟩
    obtain ⟨i, hi, hn⟩ := hview p i' hi'
    exact ⟨i, hi, hn.defs t ht⟩
  have hreads : ∀ p t, f'.ReadsAt p t → f'.isTemp t = true → f.ReadsAt p t := by
    rintro p t ⟨i', hi', ht⟩ htemp
    obtain ⟨i, hi, hn⟩ := hview p i' hi'
    exact ⟨i, hi, hn.uses t ht htemp⟩
  constructor
  · apply h.wellFormed wf
    · intro p i' hi'
      obtain ⟨i, -, hn⟩ := hview p i' hi'
      exact hn.fits
    · exact hdefs
    · intro p t hread htemp
      obtain ⟨i, hi, ht⟩ := hreads p t hread htemp
      have hlt := (wf.fits p i hi).use_lt t ht
      obtain ⟨q, hq, hdef⟩ := wf.defined p t ⟨i, hi, ht⟩ (by rwa [← h.isTemp_eq hlt])
      exact ⟨q, hq, hkeep p q t hread hdef⟩
  · intro hl q p t hdef hread
    obtain ⟨hlt, htemp⟩ := wf.isTemp_of_defines (hdefs q t hdef)
    rw [← h.isTemp_eq hlt] at htemp
    exact h.straight_iff.mpr (hl q p t (hdefs q t hdef) (hreads p t hread htemp))

/-- A change that keeps the code keeps it well formed and local. -/
theorem SameCode.keepsOrder (h : f.SameCode f') (wf : f.WellFormed) :
  f.KeepsOrder f'
  := by
  apply h.inPlace.keepsOrder_of_narrows wf
  · intro p i hi
    rw [h.fetch_eq] at hi
    exact ⟨i, hi, h.inPlace.narrows_refl wf hi⟩
  · rintro p q t - ⟨i, hi, ht⟩
    exact ⟨i, (h.fetch_eq q).trans hi, ht⟩

/-- One instruction put in the place of another with the same definitions. -/
theorem InPlace.keepsOrder_of_replaced (h : f.InPlace f') (wf : f.WellFormed) {pos : Nat} {new : Inst}
    (hold : f.fetch pos = some old) (hview : ∀ p, f'.fetch p = if p = pos then some new else f.fetch p)
    (hnew : f.Narrows f' old new) (hdefs : ∀ t ∈ old.defs, t ∈ new.defs) :
  f.KeepsOrder f'
  := by
  apply h.keepsOrder_of_narrows wf
  · intro p i' hi'
    rw [hview] at hi'
    split at hi'
    · rename_i hp
      cases hi'
      rw [hp]
      exact ⟨old, hold, hnew⟩
    · exact ⟨i', hi', h.narrows_refl wf hi'⟩
  · rintro p q t - ⟨i, hi, ht⟩
    by_cases hq : q = pos
    · subst hq
      rw [hold] at hi
      cases hi
      exact ⟨new, by rw [hview, if_pos rfl], hdefs t ht⟩
    · exact ⟨i, by rw [hview, if_neg hq, hi], ht⟩

/-- An instruction removed whose definitions nothing reads. -/
theorem keepsOrder_remove (wf : f.WellFormed) {pos : Nat} (hfetch : f.fetch pos = some old)
    (hold : ∀ l, old ≠ .label l) (hunread : ∀ t ∈ old.defs, f.Unread t) :
  f.KeepsOrder (f.remove pos)
  := by
  have h := inPlace_remove hfetch hold
  have hback : ∀ p i, (f.remove pos).fetch p = some i → f.fetch p = some i :=
    fun _ _ hi => (fetch_of_fetch_remove hi).1
  apply h.keepsOrder_of_narrows wf
  · intro p i hi
    exact ⟨i, hback p i hi, h.narrows_refl wf (hback p i hi)⟩
  · rintro p q t ⟨i, hi, ht⟩ ⟨j, hj, ht'⟩
    refine ⟨j, fetch_kept (fetch_remove pos) hfetch hj ?_, ht'⟩
    rintro rfl
    exact hunread t ht' p ⟨i, hback p i hi, ht⟩

/-! ### Folding -/

/-- A folded instruction is an operation on temps. -/
theorem foldInst?_eq_some {inst : Inst} {dest : OperandId} {sources : List OperandId}
    {result : Except CompileError (Option Constant)}
    (h : f.foldInst? inst = some (dest, sources, result)) :
  (∃ op lhs rhs l r, inst = .binary op dest lhs rhs ∧ sources = [lhs, rhs] ∧
    (f.operand lhs).constant = some l ∧ (f.operand rhs).constant = some r ∧ result = op.fold l r) ∨
  (∃ op src c, inst = .unary op dest src ∧ sources = [src] ∧
    (f.operand src).constant = some c ∧ result = op.fold c)
  := by
  cases inst with
  | binary op d lhs rhs =>
    simp only [foldInst?, Option.bind_eq_bind, Option.bind_eq_some_iff] at h
    obtain ⟨l, hl, r, hr, h⟩ := h
    cases h
    exact .inl ⟨op, lhs, rhs, l, r, rfl, rfl, hl, hr, rfl⟩
  | unary op d src =>
    simp only [foldInst?, Option.bind_eq_bind, Option.bind_eq_some_iff] at h
    obtain ⟨c, hc, h⟩ := h
    cases h
    exact .inr ⟨op, src, c, rfl, rfl, hc, rfl⟩
  | _ => cases h

/-- An instruction that constant folding considers defines one temp, reads the operands that are
looked up, and is no label. -/
theorem defs_of_foldInst? {inst : Inst} {dest : OperandId} {sources : List OperandId}
    {result : Except CompileError (Option Constant)}
    (h : f.foldInst? inst = some (dest, sources, result)) :
  inst.defs = [dest] ∧ inst.uses = sources ∧ ∀ l, inst ≠ .label l
  := by
  rcases foldInst?_eq_some h with ⟨op, lhs, rhs, l, r, rfl, rfl, -⟩ | ⟨op, src, c, rfl, rfl, -⟩
  · exact ⟨rfl, rfl, nofun⟩
  · exact ⟨rfl, rfl, nofun⟩

section Folded

variable {pos : Nat} {inst : Inst} {dest : OperandId} {value : Constant}

/-- After folding, the instruction at `pos` assigns the new constant to `dest`, and all other
positions are as before. -/
theorem fetch_foldedTo (hfetch : f.fetch pos = some inst) (p : Nat) :
  (f.foldedTo pos dest value).fetch p
    = if p = pos then some (.assign dest f.operands.size) else f.fetch p
  := by
  have h : (((f.newConstant value).2.addTypes dest (.ofConstant value)).modify dest fun o =>
      { o with constant := some value }).fetch pos = some inst := hfetch
  exact fetch_replace h _ p

/-- The operand that folding adds is the constant `value`. -/
theorem kind_foldedTo_size :
  (f.foldedTo pos dest value).kind f.operands.size = .const value
  := by
  have h : ∀ g : Function, (g.modify dest fun o => { o with constant := some value }).kind
      f.operands.size = g.kind f.operands.size := fun g => kind_modify _ _ fun _ => rfl
  refine (h _).trans ?_
  rw [kind_addTypes]
  unfold kind newConstant
  rw [operand_addOperand_self]
  exact kind_ofKind _

/-- Folding an instruction that is no label is a change in place. -/
theorem inPlace_foldedTo (hfetch : f.fetch pos = some inst) (hinst : ∀ l, inst ≠ .label l) :
  f.InPlace (f.foldedTo pos dest value)
  := by
  have h₁ : f.InPlace (f.newConstant value).2 := by
    apply inPlace_addOperand
    · intro n hn
      rw [kind_ofKind] at hn
      cases hn
    · intro n hn
      rw [kind_ofKind] at hn
      cases hn
  have h₂ := h₁.trans (sameCode_addTypes _ dest (.ofConstant value)).inPlace
  have h₃ := h₂.trans
    (sameCode_modify dest (fun o => { o with constant := some value }) fun _ => rfl).inPlace
  exact h₃.trans (inPlace_replace (by exact hfetch) hinst nofun)

/-- Folding keeps code well formed and local: the new instruction defines the same temp and reads
a constant only. -/
theorem keepsOrder_foldedTo (wf : f.WellFormed) (hfetch : f.fetch pos = some inst)
    {sources : List OperandId} {result : Except CompileError (Option Constant)}
    (hfold : f.foldInst? inst = some (dest, sources, result)) :
  f.KeepsOrder (f.foldedTo pos dest value)
  := by
  obtain ⟨hdefs, -, hlabel⟩ := defs_of_foldInst? hfold
  have h : f.InPlace (f.foldedTo pos dest value) := inPlace_foldedTo hfetch hlabel
  have hsize : f.operands.size < (f.foldedTo pos dest value).operands.size := by
    simp [foldedTo, newConstant, replace, addTypes, modify, addOperand]
  apply h.keepsOrder_of_replaced wf hfetch (fetch_foldedTo hfetch)
  · constructor
    · constructor
      · intro t ht
        obtain rfl := List.mem_singleton.mp ht
        have := (h.fits (wf.fits pos inst hfetch)).def_temp t (by rw [hdefs]; exact ht)
        exact this
      · intro t ht
        obtain rfl := List.mem_singleton.mp ht
        exact hsize
      · intro t ht
        obtain rfl := List.mem_singleton.mp ht
        exact .inr ⟨dest, rfl⟩
      · rintro _ ⟨⟩
      · rintro _ _ ⟨⟩
    · intro t ht
      rw [hdefs]
      exact ht
    · intro t ht htemp
      obtain rfl := List.mem_singleton.mp ht
      obtain ⟨n, hn⟩ := isTemp_iff.mp htemp
      rw [kind_foldedTo_size] at hn
      cases hn
  · intro t ht
    rw [hdefs] at ht
    exact ht

end Folded

/-! ### Specializing, shortening and narrowing -/

section

variable {pos : Nat}

/-- After specializing, the instruction at `pos` is the fast form on the same operands, and all
other positions are as before. -/
theorem fetch_specialized {op fast : BinOp} {dest lhs rhs : OperandId}
    (hfetch : f.fetch pos = some (.binary op dest lhs rhs)) (p : Nat) :
  (f.specialized pos fast dest lhs rhs).fetch p
    = if p = pos then some (.binary fast dest lhs rhs) else f.fetch p
  := by
  have h : (f.addTypes dest fast.resultTypes).fetch pos = some (.binary op dest lhs rhs) := hfetch
  exact fetch_replace h _ p

/-- Specializing a binary operation is a change in place. -/
theorem inPlace_specialized {op fast : BinOp} {dest lhs rhs : OperandId}
    (hfetch : f.fetch pos = some (.binary op dest lhs rhs)) :
  f.InPlace (f.specialized pos fast dest lhs rhs)
  := by
  have h₁ := (f.sameCode_addTypes dest fast.resultTypes).inPlace
  have h₂ : (f.addTypes dest fast.resultTypes).fetch pos = some (.binary op dest lhs rhs) := hfetch
  exact h₁.trans (inPlace_replace h₂ (fun _ => nofun) fun _ => nofun)

/-- Specializing keeps code well formed and local: temps are defined and read where they were. -/
theorem keepsOrder_specialized (wf : f.WellFormed) {op fast : BinOp} {dest lhs rhs : OperandId}
    (hfetch : f.fetch pos = some (.binary op dest lhs rhs)) :
  f.KeepsOrder (f.specialized pos fast dest lhs rhs)
  := by
  have h : f.InPlace (f.specialized pos fast dest lhs rhs) := inPlace_specialized hfetch
  obtain ⟨h₁, h₂, h₃, -, -⟩ := h.fits (wf.fits pos _ hfetch)
  have hfits : (Inst.binary fast dest lhs rhs).Fits (f.specialized pos fast dest lhs rhs) := by
    refine ⟨h₁, h₂, ?_, nofun, nofun⟩
    intro t ht
    rcases h₃ t ht with htemp | ⟨d, hd⟩
    · exact .inl htemp
    · cases hd
  exact h.keepsOrder_of_replaced wf hfetch (fetch_specialized hfetch)
    ⟨hfits, fun _ ht => ht, fun _ ht _ => ht⟩ fun _ ht => ht

/-- Shortening a jump keeps code well formed and local. -/
theorem keepsOrder_shortened (wf : f.WellFormed) {l : Label}
    (hfetch : f.fetch pos = some (.jump l)) :
  f.KeepsOrder (f.replace pos (.shortJump l))
  := by
  have h : f.InPlace (f.replace pos (.shortJump l)) := inPlace_replace hfetch (fun _ => nofun) fun _ => nofun
  have hfits : (Inst.shortJump l).Fits (f.replace pos (.shortJump l)) := by
    constructor <;> simp [Inst.defs, Inst.uses]
  have hnew : f.Narrows (f.replace pos (.shortJump l)) (.jump l) (.shortJump l) :=
    ⟨hfits, fun _ ht => ht, fun _ ht _ => ht⟩
  exact h.keepsOrder_of_replaced wf hfetch (fetch_replace hfetch _) hnew fun _ ht => ht

/-- Replacing a fork, one of whose copies is never read, by an assignment to the other copy keeps
code well formed and local. -/
theorem keepsOrder_narrowed (wf : f.WellFormed) {src kept dropped : OperandId}
    (hfetch : f.fetch pos = some (.fork src kept dropped) ∨
      f.fetch pos = some (.fork src dropped kept))
    (hunread : f.Unread dropped) :
  f.KeepsOrder (f.replace pos (.assign kept src))
  := by
  obtain ⟨a, b, hold, hab⟩ : ∃ a b, f.fetch pos = some (.fork src a b) ∧
      ∀ t, t ∈ [a, b] ↔ t = kept ∨ t = dropped := by
    rcases hfetch with h | h
    · exact ⟨kept, dropped, h, by simp⟩
    · refine ⟨dropped, kept, h, fun t => ?_⟩
      simp [or_comm]
  have h : f.InPlace (f.replace pos (.assign kept src)) := inPlace_replace hold (fun _ => nofun) fun _ => nofun
  have hview := fetch_replace hold (.assign kept src)
  have hnew : f.Narrows (f.replace pos (.assign kept src)) (.fork src a b) (.assign kept src) := by
    obtain ⟨h₁, h₂, -, -, -⟩ := h.fits (wf.fits pos _ hold)
    constructor
    · refine ⟨?_, h₂, fun t ht => ?_, nofun, nofun⟩
      · intro t ht
        exact h₁ t ((hab t).mpr (.inl (List.mem_singleton.mp ht)))
      · rw [List.mem_singleton.mp ht]
        exact .inr ⟨kept, rfl⟩
    · intro t ht
      exact (hab t).mpr (.inl (List.mem_singleton.mp ht))
    · exact fun _ ht _ => ht
  -- What goes is the definition of a temp that nothing reads.
  have hread : ∀ p t, (f.replace pos (.assign kept src)).ReadsAt p t → f.ReadsAt p t := by
    rintro p t ⟨i, hi, ht⟩
    rw [hview] at hi
    split at hi
    · rename_i hp
      cases hi
      exact ⟨_, (congrArg f.fetch hp).trans hold, ht⟩
    · exact ⟨i, hi, ht⟩
  apply h.keepsOrder_of_narrows wf
  · intro p i' hi'
    rw [hview] at hi'
    split at hi'
    · rename_i hp
      cases hi'
      exact ⟨_, (congrArg f.fetch hp).trans hold, hnew⟩
    · exact ⟨i', hi', h.narrows_refl wf hi'⟩
  · rintro p q t hp ⟨i, hi, ht⟩
    by_cases hq : q = pos
    · subst hq
      rw [hold] at hi
      cases hi
      refine ⟨_, (hview q).trans (if_pos rfl), ?_⟩
      rcases (hab t).mp ht with rfl | rfl
      · exact List.mem_singleton.mpr rfl
      · exact absurd (hread p t hp) (hunread p)
    · exact ⟨i, by rw [hview, if_neg hq, hi], ht⟩

end

end Function

/-! ### Renaming -/

namespace Inst

variable (r : OperandId → OperandId) (inst : Inst)

theorem defs_mapUses :
  (inst.mapUses r).defs = inst.defs
  := by
  cases inst <;> rfl

/-- After renaming, an instruction reads the new names of what it read. -/
theorem uses_mapUses :
  (inst.mapUses r).uses = inst.uses.map r
  := by
  cases inst with
  | helper request => cases request <;> rfl
  | _ => rfl

theorem mapUses_eq_label {l : Label} :
  inst.mapUses r = .label l ↔ inst = .label l
  := by
  cases inst <;> simp [mapUses]

theorem target?_mapUses :
  (inst.mapUses r).target? = inst.target?
  := by
  cases inst <;> rfl

/-- Renaming twice is renaming once along the composite. -/
theorem mapUses_mapUses (r' : OperandId → OperandId) :
  (inst.mapUses r).mapUses r' = inst.mapUses fun t => r' (r t)
  := by
  cases inst with
  | helper request => cases request <;> rfl
  | call closure args => simp [mapUses]
  | allocClosure function refs => simp [mapUses]
  | _ => rfl

/-- Only the names of what is read matter. -/
theorem mapUses_congr {r r' : OperandId → OperandId} {inst : Inst} (h : ∀ t ∈ inst.uses, r t = r' t) :
  inst.mapUses r = inst.mapUses r'
  := by
  cases inst with
  | helper request => cases request <;> simp_all [uses, mapUses, HelperCall.uses, HelperCall.mapUses]
  | _ => simp_all [uses, mapUses]

/-- An instruction none of whose operands is renamed stays as it is. -/
theorem mapUses_of_fixed {r : OperandId → OperandId} {inst : Inst} (h : ∀ t ∈ inst.uses, r t = t) :
  inst.mapUses r = inst
  := by
  rw [mapUses_congr h]
  cases inst with
  | helper request => cases request <;> rfl
  | _ => simp [mapUses]

end Inst

namespace Function

variable {f : Function} {t s id : OperandId} {p : Nat} {old : Inst}

/-- After renaming `t` to `s`, each position has the instruction that it had, with `s` read for
`t`. -/
theorem fetch_renamed (t s : OperandId) (p : Nat) :
  (f.renamed t s).fetch p = (f.fetch p).map (·.mapUses (substitute t s))
  := by
  have hr : (f.renamed t s).isRemoved p = f.isRemoved p := rfl
  unfold fetch
  rw [hr]
  split
  · rfl
  · simp [inst?, renamed]

/-- What is fetched after renaming is the renamed form of what was fetched before. -/
theorem fetch_renamed_eq_some {i' : Inst} :
  (f.renamed t s).fetch p = some i'
    ↔ ∃ i, f.fetch p = some i ∧ i.mapUses (substitute t s) = i'
  := by
  rw [fetch_renamed, Option.map_eq_some_iff]

/-- Renaming is a change in place. -/
theorem inPlace_renamed (f : Function) (t s : OperandId) :
  f.InPlace (f.renamed t s)
  := by
  constructor
  · simp [size, renamed]
  · exact fun _ => rfl
  · rfl
  · exact Nat.le_refl _
  · exact fun _ _ => rfl
  · exact fun id hid => isVar_of_size_le hid
  · exact fun hn => hn.congr rfl fun _ => rfl
  · intro p l
    rw [fetch_renamed_eq_some]
    constructor
    · rintro ⟨i, hi, hl⟩
      rw [Inst.mapUses_eq_label] at hl
      rw [hi, hl]
    · intro hi
      exact ⟨_, hi, rfl⟩

/-- Renaming does not change where a temp is defined. -/
theorem defines_renamed_iff {u : OperandId} :
  (f.renamed t s).DefinesAt p u ↔ f.DefinesAt p u
  := by
  constructor
  · rintro ⟨i', hi', hu⟩
    obtain ⟨i, hi, rfl⟩ := fetch_renamed_eq_some.mp hi'
    rw [Inst.defs_mapUses] at hu
    exact ⟨i, hi, hu⟩
  · rintro ⟨i, hi, hu⟩
    refine ⟨_, fetch_renamed_eq_some.mpr ⟨i, hi, rfl⟩, ?_⟩
    rw [Inst.defs_mapUses]
    exact hu

/-- What is read after renaming was read before, or is read in the place of the copy. -/
theorem reads_renamed {u : OperandId} (h : (f.renamed t s).ReadsAt p u) :
  (f.ReadsAt p u ∧ u ≠ t) ∨ (f.ReadsAt p t ∧ u = s)
  := by
  obtain ⟨i', hi', hu⟩ := h
  obtain ⟨i, hi, rfl⟩ := fetch_renamed_eq_some.mp hi'
  rw [Inst.uses_mapUses] at hu
  obtain ⟨w, hw, rfl⟩ := List.mem_map.mp hu
  unfold substitute
  split
  · rename_i hwt
    right
    exact ⟨⟨i, hi, hwt ▸ hw⟩, rfl⟩
  · rename_i hwt
    left
    exact ⟨⟨i, hi, hw⟩, hwt⟩

/-- Reading `s` for `t`, where `t` is assigned the temp `s`, keeps code well formed and local. -/
theorem keepsOrder_renamed (wf : f.WellFormed) {pos : Nat} (hfetch : f.fetch pos = some (.assign t s))
    (hs : f.isTemp s = true) :
  f.KeepsOrder (f.renamed t s)
  := by
  have h := f.inPlace_renamed t s
  have hread : f.ReadsAt pos s := ⟨_, hfetch, List.mem_singleton.mpr rfl⟩
  have hdef : f.DefinesAt pos t := ⟨_, hfetch, List.mem_singleton.mpr rfl⟩
  have htemp := (wf.isTemp_of_defines hdef).2
  -- The copy is defined before it is read, and what it copies before that.
  obtain ⟨q₀, hq₀, hdef₀⟩ := wf.defined pos s hread hs
  refine ⟨h.wellFormed wf ?_ ?_ ?_, ?_⟩
  · intro p i' hi'
    obtain ⟨i, hi, rfl⟩ := fetch_renamed_eq_some.mp hi'
    obtain ⟨h₁, h₂, h₃, h₄, h₅⟩ := wf.fits p i hi
    have hslt := (wf.fits pos _ hfetch).use_lt s (List.mem_singleton.mpr rfl)
    constructor
    · intro u hu
      rw [Inst.defs_mapUses] at hu
      exact h₁ u hu
    · intro u hu
      rw [Inst.uses_mapUses] at hu
      obtain ⟨w, hw, rfl⟩ := List.mem_map.mp hu
      unfold substitute
      split
      · exact hslt
      · exact h₂ w hw
    · intro u hu
      rw [Inst.uses_mapUses] at hu
      obtain ⟨w, hw, rfl⟩ := List.mem_map.mp hu
      rcases h₃ w hw with htemp | ⟨d, rfl⟩
      · left
        unfold substitute
        split
        · exact hs
        · exact htemp
      · exact .inr ⟨d, rfl⟩
    · intro x hx
      cases i <;> cases hx
      exact h₄ x rfl
    · intro x v hx
      cases i <;> cases hx
      exact h₅ x _ rfl
  · intro p u hu
    exact defines_renamed_iff.mp hu
  · intro p u hu htemp'
    rcases reads_renamed hu with ⟨hu, -⟩ | ⟨ht, rfl⟩
    · obtain ⟨q, hq, hd⟩ := wf.defined p u hu htemp'
      exact ⟨q, hq, defines_renamed_iff.mpr hd⟩
    · exact ⟨q₀, Nat.lt_trans hq₀ (wf.lt_of_reads hdef ht htemp), defines_renamed_iff.mpr hdef₀⟩
  · intro hl q p u hd hu
    rw [defines_renamed_iff] at hd
    rw [h.straight_iff]
    rcases reads_renamed hu with ⟨hu, -⟩ | ⟨ht, rfl⟩
    · exact hl q p u hd hu
    · exact (hl q pos u hd hread).trans (hl pos p t hdef ht)

/-! ### Forwarding -/

/-- A pair that forwarding finds is a store to a variable, global or closure cell, followed by the
assignment of that place to a temp. -/
theorem storeThenLoad?_eq_some (hp : f.pending = []) {pos : Nat} {location src dest : OperandId}
    (h : f.storeThenLoad? pos = some (location, src, dest)) :
  f.fetch pos = some (.store location src) ∧ f.fetch (pos + 1) = some (.assign dest location) ∧
    f.isTemp dest = true ∧
    (f.isVar location = true ∨ (∃ n, f.kind location = .global n) ∨ ∃ n, f.kind location = .contents n)
  := by
  rw [fetch_of_pending_nil hp, fetch_of_pending_nil hp]
  unfold storeThenLoad? at h
  split at h
  · rename_i loc v d loaded h₀ h₁
    split at h
    · rename_i hc
      simp only [Bool.and_eq_true, decide_eq_true_eq] at hc
      obtain ⟨rfl, hd⟩ := hc
      split at h <;> cases h
      · rename_i n hn
        exact ⟨h₀, h₁, hd, .inl (isVar_iff.mpr ⟨n, hn⟩)⟩
      · rename_i n hn
        exact ⟨h₀, h₁, hd, .inr (.inl ⟨n, hn⟩)⟩
      · rename_i n hn
        exact ⟨h₀, h₁, hd, .inr (.inr ⟨n, hn⟩)⟩
    · cases h
  · cases h

/-- A new temp about which the same is known as about another operand. -/
def copyOf (f : Function) (src : OperandId) : Operand where
  kind := .temp f.tempCount
  types := (f.operand src).types
  constant := (f.operand src).constant

/-- A copy of an operand is a new temp at the end of the table. -/
theorem newCopy_eq (f : Function) (src : OperandId) :
  f.newCopy src = (f.operands.size, (f.addOperand (f.copyOf src)).2)
  := by
  unfold newCopy newTemp
  simp only [fst_addOperand]
  rw [modify_addOperand]
  rfl

/-- Two copies of an operand are the last two operands of the table. -/
theorem newCopy_newCopy (f : Function) (src : OperandId) :
  (f.newCopy src).2.newCopy src = (f.operands.size + 1, f.withCopies src)
  := by
  refine Prod.ext ?_ rfl
  rw [newCopy_eq, newCopy_eq]
  exact size_addOperand ..

/-- The table with two copies of `src` is the table with two new temps, numbered in turn, about
which the same is known as about `src`. -/
theorem withCopies_eq (f : Function) {src : OperandId} (hsrc : src < f.operands.size) :
  ∃ n, f.withCopies src
    = ((f.addOperand (f.copyOf src)).2.addOperand { f.copyOf src with kind := .temp n }).2 ∧
      n = (f.addOperand (f.copyOf src)).2.tempCount
  := by
  unfold withCopies
  rw [newCopy_eq, newCopy_eq]
  refine ⟨_, ?_, rfl⟩
  unfold copyOf
  simp only [operand_addOperand_of_lt _ hsrc]

section Copies

variable {src : OperandId}

/-- Adding two copies of an operand is a change in place. -/
theorem inPlace_withCopies (hsrc : src < f.operands.size) :
  f.InPlace (f.withCopies src)
  := by
  obtain ⟨n, heq, hn⟩ := f.withCopies_eq hsrc
  rw [heq]
  have h₁ : f.InPlace (f.addOperand (f.copyOf src)).2 := by
    apply inPlace_addOperand
    · intro n hn
      cases hn
      rfl
    · exact fun _ => nofun
  apply h₁.trans
  apply inPlace_addOperand
  · intro m hm
    cases hm
    exact hn
  · exact fun _ => nofun

theorem size_withCopies (f : Function) (src : OperandId) :
  (f.withCopies src).operands.size = f.operands.size + 2
  := by
  unfold withCopies
  rw [newCopy_eq, newCopy_eq]
  simp

theorem operand_withCopies_of_lt (hid : id < f.operands.size) :
  (f.withCopies src).operand id = f.operand id
  := by
  unfold withCopies
  rw [newCopy_eq, newCopy_eq, operand_addOperand_of_lt, operand_addOperand_of_lt _ hid]
  rw [size_addOperand]
  exact Nat.lt_succ_of_lt hid

/-- The new temps are known to be what the other operand is known to be. -/
theorem operand_withCopies_new (hsrc : src < f.operands.size)
    (hid : id = f.operands.size ∨ id = f.operands.size + 1) :
  (f.withCopies src).isTemp id = true ∧
    ((f.withCopies src).operand id).types = (f.operand src).types ∧
    ((f.withCopies src).operand id).constant = (f.operand src).constant
  := by
  obtain ⟨n, heq, -⟩ := f.withCopies_eq hsrc
  unfold isTemp
  rw [heq, operand_addOperand, operand_addOperand, size_addOperand]
  rcases hid with rfl | rfl
  · rw [if_neg (Nat.ne_of_lt (Nat.lt_succ_self _)), if_pos rfl]
    exact ⟨rfl, rfl, rfl⟩
  · rw [if_pos rfl]
    exact ⟨rfl, rfl, rfl⟩

end Copies

section Forwarded

variable {pos : Nat} {location src dest : OperandId} {inst new : Inst}

/-- The function with room for the store of the copy. -/
def roomToForward (f : Function) (pos : Nat) (location : OperandId) : Function :=
  f.withRoom (pos + 1) (.store location f.operands.size)

/-- The function with room for the store becomes the original when it is compacted. -/
theorem compacts_roomToForward (wf : f.WellFormed) (hp : f.pending = [])
    (hpair : f.storeThenLoad? pos = some (location, src, dest)) :
  ∃ φ, (f.roomToForward pos location).Compacts f φ
  := by
  obtain ⟨h₀, h₁, -, -⟩ := storeThenLoad?_eq_some hp hpair
  exact ⟨_, compacts_withRoom hp (Nat.le_of_lt (lt_size_of_fetch h₁)) (fun _ => nofun) wf.labels⟩

/-- The function with room for the store is well formed. -/
theorem wellFormed_roomToForward (wf : f.WellFormed) (hp : f.pending = [])
    (hpair : f.storeThenLoad? pos = some (location, src, dest)) :
  (f.roomToForward pos location).WellFormed
  := by
  obtain ⟨h₀, h₁, -, -⟩ := storeThenLoad?_eq_some hp hpair
  have hk : pos + 1 ≤ f.size := Nat.le_of_lt (lt_size_of_fetch h₁)
  have hlabel : ∀ l, Inst.store location f.operands.size ≠ .label l := fun _ => nofun
  obtain ⟨φ, hφ⟩ := compacts_roomToForward wf hp hpair
  exact hφ.wellFormed_back wf (at?_labels_withRoom hp hk hlabel wf.labels)

/-- The places of the pair once there is room between them. -/
theorem fetch_roomToForward (hp : f.pending = [])
    (hpair : f.storeThenLoad? pos = some (location, src, dest)) :
  (f.roomToForward pos location).fetch pos = some (.store location src) ∧
  (f.roomToForward pos location).fetch (pos + 1) = none ∧
  (f.roomToForward pos location).fetch (pos + 2) = some (.assign dest location)
  := by
  obtain ⟨h₀, h₁, -, -⟩ := storeThenLoad?_eq_some hp hpair
  have hk : pos + 1 ≤ f.size := Nat.le_of_lt (lt_size_of_fetch h₁)
  unfold roomToForward
  simp only [fetch_withRoom hp hk]
  refine ⟨?_, ?_, ?_⟩
  · rw [if_pos (Nat.lt_succ_self _), h₀]
  · rw [if_neg (Nat.lt_irrefl _), if_pos trivial]
  · rw [if_neg (by omega), if_neg (by omega)]
    exact h₁

/-- With the store at `pos` turned into a fork, that position defines the two copies, and all
other positions are as before. -/
theorem fetch_forked (hfetch : f.fetch pos = some (.store location src)) (p : Nat) :
  (f.forked pos src).fetch p
    = if p = pos then some (.fork src f.operands.size (f.operands.size + 1)) else f.fetch p
  := by
  have h : (f.withCopies src).fetch pos = some (.store location src) := hfetch
  exact fetch_replace h _ p

/-- Turning a store into a fork of its value is a change in place. -/
theorem inPlace_forked (hsrc : src < f.operands.size)
    (hfetch : f.fetch pos = some (.store location src)) :
  f.InPlace (f.forked pos src)
  := by
  have h : (f.withCopies src).fetch pos = some (.store location src) := hfetch
  exact (inPlace_withCopies hsrc).trans (inPlace_replace h (fun _ => nofun) fun _ => nofun)

/-- The code of a function with its store forked and the other store put in. -/
theorem fetch_forked_inserted (hp : f.pending = []) (hsrc : src < f.operands.size)
    (h₀ : f.fetch pos = some (.store location src)) (h₁ : f.fetch (pos + 1) = some inst) (p : Nat) :
  ((f.forked pos src).inserted (pos + 1) new).fetch p
    = if p = pos then some (.fork src f.operands.size (f.operands.size + 1))
      else if p = pos + 1 then some new
      else (f.withRoom (pos + 1) new).fetch p
  := by
  have hk : pos + 1 ≤ f.size := Nat.le_of_lt (lt_size_of_fetch h₁)
  have hk' : pos + 1 ≤ (f.forked pos src).size := by
    rw [(inPlace_forked hsrc h₀).size_eq]
    exact hk
  rw [fetch_inserted (by exact hp) hk', fetch_withRoom hp hk, fetch_forked h₀, fetch_forked h₀]
  by_cases h₂ : p = pos + 1
  · simp [h₂]
  · by_cases h₃ : p = pos
    · simp [h₃]
    · simp only [if_neg h₂, if_neg h₃]
      split
      · rfl
      · rw [if_neg (by omega)]

/-- Forwarding adds the two copies to the operands and changes no kind. -/
theorem size_operands_forwarded (f : Function) (pos : Nat) (location src dest : OperandId) :
  (f.forwarded pos location src dest).operands.size = (f.withCopies src).operands.size
  := by
  have hreplace : ∀ (g : Function) p i, (g.replace p i).operands = g.operands := fun _ _ _ => rfl
  have hinserted : ∀ (g : Function) k i, (g.inserted k i).operands = g.operands := fun _ _ _ => rfl
  unfold forwarded forked
  rw [size_modify, hreplace, hinserted, hreplace]

/-- The operands after forwarding are those with the two copies added. -/
theorem kind_forwarded (f : Function) (pos : Nat) (location src dest id : OperandId) :
  (f.forwarded pos location src dest).kind id = (f.withCopies src).kind id
  := by
  have hclear : ∀ g : Function, (g.modify dest fun o => { o with loadedFrom := none }).kind id
      = g.kind id := fun g => kind_modify _ _ fun _ => rfl
  have hreplace : ∀ (g : Function) p i, (g.replace p i).kind id = g.kind id := fun _ _ _ => rfl
  have hinserted : ∀ (g : Function) k i, (g.inserted k i).kind id = g.kind id := fun _ _ _ => rfl
  unfold forwarded forked
  rw [hclear, hreplace, hinserted, hreplace]

/-- After forwarding, the fork, the store of the first copy and the assignment of the second stand
one after the other from `pos` on, and all other positions are those of the function with room. -/
theorem fetch_forwarded (wf : f.WellFormed) (hp : f.pending = [])
    (hpair : f.storeThenLoad? pos = some (location, src, dest)) (p : Nat) :
  (f.forwarded pos location src dest).fetch p
    = if p = pos then some (.fork src f.operands.size (f.operands.size + 1))
      else if p = pos + 1 then some (.store location f.operands.size)
      else if p = pos + 2 then some (.assign dest (f.operands.size + 1))
      else (f.roomToForward pos location).fetch p
  := by
  obtain ⟨h₀, h₁, -, -⟩ := storeThenLoad?_eq_some hp hpair
  have hsrc := (wf.fits pos _ h₀).use_lt src (List.mem_singleton.mpr rfl)
  have hview : ∀ q, ((f.forked pos src).inserted (pos + 1) (.store location f.operands.size)).fetch q
    = _ := fetch_forked_inserted hp hsrc h₀ h₁
  have hload := (hview (pos + 2)).trans ((if_neg (by omega)).trans ((if_neg (by omega)).trans
    (fetch_roomToForward hp hpair).2.2))
  have hclear : ∀ g : Function, (g.modify dest fun o => { o with loadedFrom := none }).fetch p
      = g.fetch p := fun _ => rfl
  unfold forwarded
  rw [hclear, fetch_replace hload, hview]
  by_cases h₂ : p = pos + 2
  · rw [if_pos h₂, if_neg (by omega), if_neg (by omega), if_pos h₂]
  · simp only [if_neg h₂]
    rfl

/-- Forwarding is a change in place of the function with room for the store. -/
theorem inPlace_forwarded (wf : f.WellFormed) (hp : f.pending = [])
    (hpair : f.storeThenLoad? pos = some (location, src, dest)) :
  (f.roomToForward pos location).InPlace (f.forwarded pos location src dest)
  := by
  obtain ⟨h₀, h₁, -, -⟩ := storeThenLoad?_eq_some hp hpair
  have hsrc := (wf.fits pos _ h₀).use_lt src (List.mem_singleton.mpr rfl)
  have hk : pos + 1 ≤ f.size := Nat.le_of_lt (lt_size_of_fetch h₁)
  have hfork := inPlace_forked hsrc h₀
  have hk' : pos + 1 ≤ (f.forked pos src).size := Nat.le_trans hk (Nat.le_of_eq hfork.size_eq.symm)
  obtain ⟨hr₀, hr₁, hr₂⟩ := fetch_roomToForward hp hpair
  have hlabel : ∀ l, Inst.store location f.operands.size ≠ .label l := fun _ => nofun
  have hcopies := inPlace_withCopies hsrc
  have hroom : (f.roomToForward pos location).operands = f.operands := rfl
  have hclear : ∀ g : Function, (g.modify dest fun o => { o with loadedFrom := none }).size = g.size ∧
      (g.modify dest fun o => { o with loadedFrom := none }).labels = g.labels :=
    fun _ => ⟨rfl, rfl⟩
  have hreplace : ∀ (g : Function) p i, (g.replace p i).labels = g.labels := fun _ _ _ => rfl
  have hiff : ∀ p l, (f.forwarded pos location src dest).fetch p = some (.label l) ↔
      (f.roomToForward pos location).fetch p = some (.label l) := by
    intro p l
    rw [fetch_forwarded wf hp hpair]
    split
    · simp [*]
    · split
      · simp [*]
      · split
        · simp [*]
        · rfl
  constructor
  · have h : (f.roomToForward pos location).size = f.size + 1 := size_inserted hk
    unfold forwarded
    rw [(hclear _).1, size_replace, size_inserted hk', hfork.size_eq, h]
  · intro l
    -- Both tables give the position at which the label stands.
    apply Option.ext
    intro p
    rw [(wellFormed_roomToForward wf hp hpair).labels, ← hiff]
    have htable := at?_labels_inserted (f := f.forked pos src) hp hk' hlabel
      (fun l p => by rw [hfork.labels_eq, hfork.label_iff, wf.labels]) l p
    have hlabels : (f.forwarded pos location src dest).labels
        = ((f.forked pos src).inserted (pos + 1) (.store location f.operands.size)).labels := by
      unfold forwarded
      rw [(hclear _).2, hreplace]
    rw [hlabels, htable, fetch_forked_inserted hp hsrc h₀ h₁, fetch_forwarded wf hp hpair]
    split
    · rfl
    · split
      · rfl
      · split
        · rename_i hp₂
          have : (f.withRoom (pos + 1) (.store location f.operands.size)).fetch p = _ :=
            (congrArg _ hp₂).trans hr₂
          simp [this]
        · rfl
  · rfl
  · rw [hroom, size_operands_forwarded]
    exact hcopies.operands_le
  · intro id hid
    rw [kind_forwarded]
    exact hcopies.kind_eq id hid
  · intro id hid
    rw [isVar_congr (kind_forwarded f pos location src dest id)]
    exact hcopies.new_isVar id hid
  · intro hn
    exact Numbered.congr (hcopies.numbered (hn.congr rfl fun _ => rfl))
      (size_operands_forwarded ..) (kind_forwarded f pos location src dest)
  · exact hiff

theorem pending_forked (f : Function) (pos : Nat) (src : OperandId) :
  (f.forked pos src).pending = f.pending
  := by
  have hreplace : ∀ (g : Function) p i, (g.replace p i).pending = g.pending := fun _ _ _ => rfl
  have hcopies : (f.withCopies src).pending = f.pending := rfl
  unfold forked
  rw [hreplace, hcopies]

theorem pending_forwarded (f : Function) (pos : Nat) (location src dest : OperandId) :
  (f.forwarded pos location src dest).pending = f.pending
  := by
  have hmodify : ∀ (g : Function) change, (g.modify dest change).pending = g.pending := fun _ _ => rfl
  have hreplace : ∀ (g : Function) p i, (g.replace p i).pending = g.pending := fun _ _ _ => rfl
  have hinserted : ∀ (g : Function) k i, (g.inserted k i).pending = g.pending := fun _ _ _ => rfl
  unfold forwarded
  rw [hmodify, hreplace, hinserted, pending_forked]

/-- The two copies that forwarding adds are temps of the new function. -/
theorem isTemp_of_new (wf : f.WellFormed) (hp : f.pending = [])
    (hpair : f.storeThenLoad? pos = some (location, src, dest)) {t : OperandId}
    (ht : t = f.operands.size ∨ t = f.operands.size + 1) :
  t < (f.forwarded pos location src dest).operands.size ∧
    (f.forwarded pos location src dest).isTemp t = true
  := by
  obtain ⟨h₀, -, -, -⟩ := storeThenLoad?_eq_some hp hpair
  have hsrc := (wf.fits pos _ h₀).use_lt src (List.mem_singleton.mpr rfl)
  constructor
  · rw [size_operands_forwarded, size_withCopies]
    rcases ht with rfl | rfl
    · exact Nat.lt_add_of_pos_right (by decide)
    · exact Nat.lt_succ_self _
  · rw [isTemp_congr (kind_forwarded f pos location src dest t)]
    exact (operand_withCopies_new hsrc ht).1

/-- Forwarding adds the definitions of the two copies. -/
theorem defines_forwarded_iff (wf : f.WellFormed) (hp : f.pending = [])
    (hpair : f.storeThenLoad? pos = some (location, src, dest)) {t : OperandId} :
  (f.forwarded pos location src dest).DefinesAt p t
    ↔ (f.roomToForward pos location).DefinesAt p t ∨
      p = pos ∧ (t = f.operands.size ∨ t = f.operands.size + 1)
  := by
  obtain ⟨hr₀, hr₁, hr₂⟩ := fetch_roomToForward hp hpair
  unfold DefinesAt
  rw [fetch_forwarded wf hp hpair]
  by_cases h₀ : p = pos
  · simp [h₀, hr₀, Inst.defs]
  · by_cases h₁ : p = pos + 1
    · simp [h₁, hr₁, Inst.defs]
    · by_cases h₂ : p = pos + 2
      · simp [h₂, hr₂, Inst.defs]
      · simp [h₀, h₁, h₂]

/-- The copies are read in the place of the value and of the location. -/
theorem reads_forwarded (wf : f.WellFormed) (hp : f.pending = [])
    (hpair : f.storeThenLoad? pos = some (location, src, dest)) {t : OperandId}
    (h : (f.forwarded pos location src dest).ReadsAt p t) :
  (f.roomToForward pos location).ReadsAt p t ∨
    p = pos + 1 ∧ t = f.operands.size ∨ p = pos + 2 ∧ t = f.operands.size + 1
  := by
  obtain ⟨hr₀, -, -⟩ := fetch_roomToForward hp hpair
  obtain ⟨i, hi, ht⟩ := h
  rw [fetch_forwarded wf hp hpair] at hi
  split at hi
  · rename_i hp₀
    cases hi
    exact .inl ⟨_, (congrArg _ hp₀).trans hr₀, ht⟩
  · split at hi
    · cases hi
      exact .inr (.inl ⟨‹_›, List.mem_singleton.mp ht⟩)
    · split at hi
      · cases hi
        exact .inr (.inr ⟨‹_›, List.mem_singleton.mp ht⟩)
      · exact .inl ⟨i, hi, ht⟩

/-- Every instruction after forwarding fits the new function. -/
theorem fits_forwarded (wf : f.WellFormed) (hp : f.pending = [])
    (hpair : f.storeThenLoad? pos = some (location, src, dest)) {i : Inst}
    (hi : (f.forwarded pos location src dest).fetch p = some i) :
  i.Fits (f.forwarded pos location src dest)
  := by
  have h := inPlace_forwarded wf hp hpair
  have wfr := wellFormed_roomToForward wf hp hpair
  obtain ⟨hr₀, -, hr₂⟩ := fetch_roomToForward hp hpair
  have hstore := h.fits (wfr.fits _ _ hr₀)
  have hload := h.fits (wfr.fits _ _ hr₂)
  have hnew : ∀ t, t = f.operands.size ∨ t = f.operands.size + 1 → _ :=
    fun t => isTemp_of_new wf hp hpair
  rw [fetch_forwarded wf hp hpair] at hi
  split at hi
  · cases hi
    constructor
    · intro t ht
      exact hnew t (by simpa [Inst.defs] using ht)
    · exact hstore.use_lt
    · intro t ht
      rcases hstore.use_temp t ht with htemp | ⟨d, hd⟩
      · exact .inl htemp
      · cases hd
    · exact fun _ => nofun
    · exact fun _ _ => nofun
  · split at hi
    · cases hi
      constructor
      · exact fun _ => nofun
      · intro t ht
        exact (hnew t (.inl (List.mem_singleton.mp ht))).1
      · intro t ht
        exact .inl (hnew t (.inl (List.mem_singleton.mp ht))).2
      · exact fun _ => nofun
      · rintro x s hx
        cases hx
        exact hstore.store_place location src rfl
    · split at hi
      · cases hi
        constructor
        · exact hload.def_temp
        · intro t ht
          exact (hnew t (.inr (List.mem_singleton.mp ht))).1
        · intro t ht
          exact .inl (hnew t (.inr (List.mem_singleton.mp ht))).2
        · exact fun _ => nofun
        · exact fun _ _ => nofun
      · exact h.fits (wfr.fits p i hi)

/-- Forwarding keeps code well formed and local: the copies are defined by the fork and read only
right after it. -/
theorem keepsOrder_forwarded (wf : f.WellFormed) (hp : f.pending = [])
    (hpair : f.storeThenLoad? pos = some (location, src, dest)) :
  f.KeepsOrder (f.forwarded pos location src dest)
  := by
  have h := inPlace_forwarded wf hp hpair
  have wfr := wellFormed_roomToForward wf hp hpair
  obtain ⟨hr₀, hr₁, hr₂⟩ := fetch_roomToForward hp hpair
  have hfresh : ∀ p t, (f.roomToForward pos location).DefinesAt p t →
      ¬ (t = f.operands.size ∨ t = f.operands.size + 1) := by
    intro p t hd ht
    have hlt : t < f.operands.size := (wfr.isTemp_of_defines hd).1
    rcases ht with rfl | rfl
    · exact Nat.lt_irrefl _ hlt
    · exact Nat.lt_irrefl _ (Nat.lt_of_succ_lt hlt)
  have hstraight : ∀ p, p ≤ pos + 2 → (f.forwarded pos location src dest).Straight pos p := by
    intro p hle r l hlt hr hl
    rw [h.label_iff] at hl
    have hcases : r = pos + 1 ∨ r = pos + 2 := by omega
    rcases hcases with rfl | rfl
    · rw [hr₁] at hl
      cases hl
    · rw [hr₂] at hl
      cases hl
  refine ⟨⟨?_, ?_, ?_, ?_, ?_⟩, ?_⟩
  · exact h.numbered wfr.numbered
  · exact fun p i => fits_forwarded wf hp hpair
  · intro l p
    rw [h.labels_eq, h.label_iff, wfr.labels]
  · intro p q t hd hd'
    rcases (defines_forwarded_iff wf hp hpair).mp hd with hd | ⟨rfl, ht⟩ <;>
      rcases (defines_forwarded_iff wf hp hpair).mp hd' with hd' | ⟨hq, ht'⟩
    · exact wfr.single p q t hd hd'
    · exact absurd ht' (hfresh p t hd)
    · exact absurd ht (hfresh q t hd')
    · exact hq.symm
  · intro p t hread htemp
    rcases reads_forwarded wf hp hpair hread with hread | ⟨rfl, rfl⟩ | ⟨rfl, rfl⟩
    · obtain ⟨i, hi, ht⟩ := hread
      have hlt := (wfr.fits p i hi).use_lt t ht
      rw [h.isTemp_eq hlt] at htemp
      obtain ⟨q, hq, hd⟩ := wfr.defined p t ⟨i, hi, ht⟩ htemp
      exact ⟨q, hq, (defines_forwarded_iff wf hp hpair).mpr (.inl hd)⟩
    · exact ⟨pos, Nat.lt_succ_self _, (defines_forwarded_iff wf hp hpair).mpr (.inr ⟨rfl, .inl rfl⟩)⟩
    · exact ⟨pos, by omega, (defines_forwarded_iff wf hp hpair).mpr (.inr ⟨rfl, .inr rfl⟩)⟩
  · intro hl q p t hd hread
    obtain ⟨φ, hφ⟩ := compacts_roomToForward wf hp hpair
    rcases (defines_forwarded_iff wf hp hpair).mp hd with hd | ⟨rfl, ht⟩ <;>
      rcases reads_forwarded wf hp hpair hread with hread | ⟨rfl, ht'⟩ | ⟨rfl, ht'⟩
    · exact h.straight_iff.mpr (hφ.local_iff.mp hl q p t hd hread)
    · exact absurd (.inl ht') (hfresh q t hd)
    · exact absurd (.inr ht') (hfresh q t hd)
    · obtain ⟨i, hi, hti⟩ := hread
      have hlt : t < f.operands.size := (wfr.fits p i hi).use_lt t hti
      rcases ht with rfl | rfl
      · exact absurd hlt (Nat.lt_irrefl _)
      · exact absurd (Nat.lt_of_succ_lt hlt) (Nat.lt_irrefl _)
    · exact hstraight _ (Nat.le_succ _)
    · exact hstraight _ (Nat.le_refl _)

end Forwarded

end Function

open IR.Function

/-- Every change keeps code in order. -/
theorem Edit.keepsOrder {f f' : Function} (h : Edit f f') (wf : f.WellFormed) :
  f.KeepsOrder f'
  := by
  cases h with
  | annotate same => exact same.keepsOrder wf
  | fold hfetch hresult => exact keepsOrder_foldedTo wf hfetch hresult
  | specialize hfetch => exact keepsOrder_specialized wf hfetch
  | rename hfetch htemp => exact keepsOrder_renamed wf hfetch htemp
  | erase hfetch hpure hunread =>
    refine keepsOrder_remove wf hfetch ?_ hunread
    rintro l rfl
    cases hpure
  | eraseAssertion hfetch => exact keepsOrder_remove wf hfetch (fun _ => nofun) nofun
  | narrow hfetch hunread => exact keepsOrder_narrowed wf hfetch hunread
  | eraseStore hfetch => exact keepsOrder_remove wf hfetch (fun _ => nofun) nofun
  | forward hpending hpair => exact keepsOrder_forwarded wf hpending hpair
  | compact =>
    obtain ⟨φ, hφ⟩ := compacts_compact wf.labels
    exact ⟨hφ.wellFormed wf, hφ.local_iff.mpr⟩

/-- Every change that a pass makes keeps code well formed. -/
theorem Edit.wellFormed {f f' : Function} (h : Edit f f') (wf : f.WellFormed) :
  f'.WellFormed
  := (h.keepsOrder wf).wellFormed

end StackCompiler.IR
