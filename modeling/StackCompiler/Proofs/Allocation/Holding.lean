import StackCompiler.Proofs.Allocation.Machine
import StackCompiler.Proofs.Machine.Compilation
import StackCompiler.Proofs.Passes.Loads

/-!
# What registers hold

A temp or a variable is `Held` at a position when it has been filled on the way there and may
still be read.  The interval of what is held after an instruction that does not fill it goes on
before and after the instruction.  So its register is saved across a call, and no other operand
has its place that the instruction fills.
-/

namespace StackCompiler

variable {r : Register}

/-! ### Saved registers -/

/-- The registers after an insertion are the one inserted and those that were there. -/
theorem Register.mem_insertOrdered {s : Register} {rs : List Register} :
  s ∈ r.insertOrdered rs ↔ s = r ∨ s ∈ rs
  := by
  induction rs with
  | nil => simp [insertOrdered]
  | cons q rs ih =>
    unfold insertOrdered
    split
    · simp
    · split
      · rename_i hrq
        simp [hrq]
      · rw [List.mem_cons, ih, List.mem_cons]
        grind

theorem Register.number_inj {s : Register} (h : r.number = s.number) :
  r = s
  := by
  cases r <;> cases s <;> cases h <;> rfl

/-- Insertion keeps registers in the order of their numbers. -/
theorem Register.pairwise_insertOrdered {rs : List Register}
    (h : rs.Pairwise fun a b => a.number < b.number) :
  (r.insertOrdered rs).Pairwise fun a b => a.number < b.number
  := by
  induction rs with
  | nil => exact List.pairwise_singleton ..
  | cons q rs ih =>
    obtain ⟨hq, hrs⟩ := List.pairwise_cons.mp h
    unfold insertOrdered
    split
    · rename_i hlt
      refine List.pairwise_cons.mpr ⟨fun s hs => ?_, h⟩
      rcases List.mem_cons.mp hs with rfl | hs
      · exact hlt
      · exact Nat.lt_trans hlt (hq s hs)
    · rename_i hge
      split
      · exact h
      · rename_i hne
        refine List.pairwise_cons.mpr ⟨fun s hs => ?_, ih hrs⟩
        rcases mem_insertOrdered.mp hs with rfl | hs
        · have hnumber := mt number_inj hne
          omega
        · exact hq s hs

namespace IR

/-- The interval of an operand goes on before and after a position. -/
def Operand.Spans (o : Operand) (pos : Nat) : Prop :=
  ∃ start stop, o.liveStart = some start ∧ o.liveEnd = some stop ∧ start < pos ∧ pos < stop

/-- An interval that goes on before and after a position starts before it and ends after it. -/
theorem Operand.Spans.first_lt_last {o : Operand} {pos : Nat} (h : o.Spans pos) :
  o.firstPosition < pos ∧ pos < o.lastPosition
  := by
  obtain ⟨start, stop, hstart, hstop, h₁, h₂⟩ := h
  simp [firstPosition, lastPosition, hstart, hstop, h₁, h₂]

/-- A register that calls need not leave alone is saved across a call that the interval of its
operand spans. -/
theorem mem_savedAcross {f : Function} {id : OperandId} {pos : Nat}
    (hr : (f.operand id).register = some r) (hspans : (f.operand id).Spans pos)
    (hcaller : r.isCallerSaved = true) :
  r ∈ Machine.savedAcross f pos
  := by
  have hmem : f.operand id ∈ f.operands.toList := by
    rcases Nat.lt_or_ge id f.operands.size with hlt | hge
    · unfold Function.operand
      rw [Array.getD_eq_getD_getElem?, Array.getElem?_eq_getElem hlt]
      exact Array.getElem_mem_toList hlt
    · unfold Function.operand at hr
      rw [Array.getD_eq_getD_getElem?, Array.getElem?_eq_none hge] at hr
      cases hr
  obtain ⟨start, stop, hstart, hstop, h₁, h₂⟩ := hspans
  unfold Machine.savedAcross
  generalize f.operands.toList = operands at hmem
  suffices h : ∀ saved : List Register, r ∈ saved ∨ f.operand id ∈ operands → r ∈ operands.foldl _ saved from
    h [] (.inr hmem)
  clear hmem
  induction operands with
  | nil =>
    rintro saved (h | h)
    · exact h
    · cases h
  | cons o operands ih =>
    intro saved h
    apply ih
    rcases h with h | h
    · left
      dsimp only
      split
      · split
        · exact Register.mem_insertOrdered.mpr (.inr h)
        · exact h
      · exact h
    · rcases List.mem_cons.mp h with rfl | h
      · left
        simp [hr, hstart, hstop, h₁, h₂, hcaller, Register.mem_insertOrdered]
      · exact .inr h

/-- What saving one register after the other keeps is true of those that are saved. -/
theorem savedAcross_induction {P : List Register → Prop} {f : Function} {pos : Nat} (hnil : P [])
    (hinsert : ∀ saved id r, P saved → (f.operand id).register = some r → (f.operand id).Spans pos →
      r.isCallerSaved = true → P (r.insertOrdered saved)) :
  P (Machine.savedAcross f pos)
  := by
  unfold Machine.savedAcross
  refine List.foldlRecOn _ _ hnil fun saved hsaved o ho => ?_
  obtain ⟨id, hlt, rfl⟩ := List.getElem_of_mem ho
  have hoperand : f.operands.toList[id] = f.operand id := by
    unfold Function.operand
    rw [Array.getD_eq_getD_getElem?, Array.getElem?_eq_getElem hlt, Array.getElem_toList]
    rfl
  rw [hoperand]
  split
  · rename_i r start stop hr hstart hstop
    split
    · rename_i hspans
      simp only [Bool.and_eq_true, decide_eq_true_eq] at hspans
      obtain ⟨⟨h₁, h₂⟩, hcaller⟩ := hspans
      exact hinsert saved id r hsaved hr ⟨start, stop, hstart, hstop, h₁, h₂⟩ hcaller
    · exact hsaved
  · exact hsaved

/-- A register is saved for an operand whose interval spans the call. -/
theorem exists_of_mem_savedAcross {f : Function} {pos : Nat} (h : r ∈ Machine.savedAcross f pos) :
  ∃ id, (f.operand id).register = some r ∧ (f.operand id).Spans pos ∧ r.isCallerSaved = true
  := by
  refine savedAcross_induction (P := fun saved => ∀ r ∈ saved, ∃ id, (f.operand id).register = some r ∧
    (f.operand id).Spans pos ∧ r.isCallerSaved = true) ?_ ?_ r h
  · rintro _ ⟨⟩
  · intro saved id s ih hs hspans hcaller r hmem
    rcases Register.mem_insertOrdered.mp hmem with rfl | hmem
    · exact ⟨id, hs, hspans, hcaller⟩
    · exact ih r hmem

theorem nodup_savedAcross (f : Function) (pos : Nat) :
  (Machine.savedAcross f pos).Nodup
  := by
  have hsorted : (Machine.savedAcross f pos).Pairwise fun a b => a.number < b.number := by
    apply savedAcross_induction List.Pairwise.nil
    exact fun _ _ _ ih _ _ _ => Register.pairwise_insertOrdered ih
  exact hsorted.imp fun hlt heq => absurd (congrArg Register.number heq) (Nat.ne_of_lt hlt)

/-! ### Places -/

namespace Function

variable {f : Function} {p q : Nat} {id d : OperandId} {inst : Inst}

/-- A temp or a variable. -/
def IsValue (f : Function) (id : OperandId) : Prop := f.isTemp id = true ∨ f.isVar id = true

/-- The place of an operand is a register if it is a temp or a variable that was given this
register. -/
theorem home?_eq_register :
  f.home? id = some (.register r) ↔ f.IsValue id ∧ (f.operand id).register = some r
  := by
  unfold home? IsValue
  rw [isTemp_iff, isVar_iff]
  cases f.kind id <;> cases (f.operand id).register <;> simp

theorem kind_of_home?_slot {n : Nat} (h : f.home? id = some (.slot n)) :
  f.kind id = .temp n
  := by
  unfold home? at h
  split at h <;> cases h
  assumption

theorem kind_of_home?_entry {n : Nat} (h : f.home? id = some (.entry n)) :
  f.kind id = .var n
  := by
  unfold home? at h
  split at h <;> cases h
  assumption

/-- Temps and variables have a place. -/
theorem IsValue.exists_home (h : f.IsValue id) :
  ∃ home, f.home? id = some home
  := by
  unfold home?
  rcases h with h | h
  · obtain ⟨n, hn⟩ := isTemp_iff.mp h
    rw [hn]
    cases (f.operand id).register <;> exact ⟨_, rfl⟩
  · obtain ⟨n, hn⟩ := isVar_iff.mp h
    rw [hn]
    cases (f.operand id).register <;> exact ⟨_, rfl⟩

end Function

/-- What an instruction fills is a temp that it defines, or a variable that it loads or stores to. -/
theorem Inst.Fits.of_mem_targets {f : Function} {inst : Inst} {d : OperandId} (h : inst.Fits f)
    (hd : d ∈ inst.targets f) :
  d < f.operands.size ∧ (d ∈ inst.defs ∧ f.isTemp d = true ∨
    f.isVar d = true ∧ (inst = .forceLoad d ∨ ∃ s, inst = .store d s))
  := by
  cases inst with
  | store x s =>
    obtain ⟨hlt, hplace⟩ := h.store_place x s rfl
    cases hkind : f.kind x with
    | var n =>
      cases eq_of_mem_targets_store hd
      exact ⟨hlt, .inr ⟨Function.isVar_iff.mpr ⟨n, hkind⟩, .inr ⟨s, rfl⟩⟩⟩
    | global | contents =>
      simp [targets, hkind] at hd
    | _ =>
      rw [hkind] at hplace
      cases hplace
  | forceLoad x =>
    obtain ⟨hlt, hvar⟩ := h.load_var x rfl
    simp only [targets, hvar, if_true, List.mem_singleton] at hd
    subst hd
    exact ⟨hlt, .inr ⟨hvar, .inl rfl⟩⟩
  | _ =>
    obtain ⟨hlt, htemp⟩ := h.def_temp d hd
    exact ⟨hlt, .inl ⟨hd, htemp⟩⟩

theorem Inst.mem_targets_of_mem_defs {f : Function} {inst : Inst} {d : OperandId} (h : d ∈ inst.defs) :
  d ∈ inst.targets f
  := by
  cases inst with
  | store | forceLoad => cases h
  | _ => exact h

/-- An instruction that fills an operand goes on to the next position. -/
theorem Inst.target?_of_mem_targets {f : Function} {inst : Inst} {d : OperandId}
    (h : d ∈ inst.targets f) :
  inst.target? = none
  := by
  cases inst with
  | jump | shortJump | condJump => cases h
  | _ => rfl

/-! ### Values that may still be read -/

namespace Function

variable {f : Function} {p q : Nat} {id d : OperandId} {inst : Inst}

/-- An operand has been filled on the way to a position and may still be read: it is a temp
between its definition and a read, or a variable that the code which opens the function filled. -/
def Held (f : Function) (p : Nat) (id : OperandId) : Prop :=
  (∃ q r, f.DefinesAt q id ∧ f.ReadsAt r id ∧ q < p ∧ p ≤ r) ∨
    f.isVar id = true ∧ (∃ q, f.OpensAt q id ∧ q < p) ∧
      ∃ r, f.LoadsAt r id ∧ Relation.ReflTransGen f.Flows p r

/-- What is held was held before, or is filled just now. -/
theorem Held.back (wf : f.WellFormed) (hlocal : f.Local) (hflow : f.Flows p q) (h : f.Held q id) :
  f.Held p id ∨ ∃ inst, f.fetch p = some inst ∧ id ∈ inst.targets f
  := by
  rcases h with ⟨s, r, hdef, hread, hlt, hle⟩ | ⟨hvar, ⟨s, hopens, hlt⟩, r, hload, hpath⟩
  · have hq : q = p + 1 := by
      cases hflow with
      | next | skip => rfl
      | @jump _ i l _ _ hlabel =>
        exact absurd ((wf.labels l q).mp hlabel) (hlocal s r id hdef hread q l hlt hle)
    rcases Nat.lt_or_ge s p with hsp | hge
    · exact .inl (.inl ⟨s, r, hdef, hread, hsp, by omega⟩)
    · obtain rfl : s = p := by omega
      obtain ⟨inst, hi, hd⟩ := hdef
      exact .inr ⟨inst, hi, Inst.mem_targets_of_mem_defs hd⟩
  · rcases Nat.lt_or_ge s p with hsp | hge
    · exact .inl (.inr ⟨hvar, ⟨s, hopens, hsp⟩, r, hload, .head hflow hpath⟩)
    · right
      cases hflow with
      | next | skip =>
        obtain rfl : s = p := by omega
        rcases hopens.fills with hfill | ⟨v, hfill⟩
        · exact ⟨_, hfill, Inst.mem_targets_of_isVar hvar (.inl rfl)⟩
        · exact ⟨_, hfill, Inst.mem_targets_of_isVar hvar (.inr ⟨v, rfl⟩)⟩
      | @jump _ i l hfetch hl =>
        -- No jump stands before the position that fills the variable.
        rw [(hopens.first p i hge hfetch).1] at hl
        cases hl

/-- What an instruction reads from its place is held. -/
theorem held_of_uses (wf : f.WellFormed) (hopened : f.Opened) (hfetch : f.fetch p = some inst)
    (hid : id ∈ inst.uses) (hvalue : f.IsValue id) :
  f.Held p id
  := by
  have hread : f.ReadsAt p id := ⟨inst, hfetch, hid⟩
  rcases hvalue with htemp | hvar
  · obtain ⟨q, hlt, hdef⟩ := wf.defined p id hread htemp
    exact .inl ⟨q, p, hdef, hread, hlt, Nat.le_refl p⟩
  · rcases (wf.fits p inst hfetch).use_temp id hid with htemp | ⟨d, rfl⟩
    · rw [isVar_eq_false htemp] at hvar
      cases hvar
    · have hload : f.LoadsAt p id := ⟨d, hfetch⟩
      obtain ⟨q, hlt, hopens⟩ := hopened p id hload hvar
      exact .inr ⟨hvar, ⟨q, hopens, hlt⟩, p, hload, .refl⟩

/-- What is held is a temp or a variable of the table. -/
theorem Held.isValue (wf : f.WellFormed) (h : f.Held p id) :
  id < f.operands.size ∧ f.IsValue id
  := by
  rcases h with ⟨q, -, hdef, -⟩ | ⟨hvar, -⟩
  · obtain ⟨hlt, htemp⟩ := wf.isTemp_of_defines hdef
    exact ⟨hlt, .inl htemp⟩
  · exact ⟨isVar_lt hvar, .inr hvar⟩

/-! ### Allocated code -/

/-- Code with intervals and registers that fit it. -/
structure Allocated (f : Function) : Prop where
  wellFormed : f.WellFormed
  isLocal : f.Local
  opened : f.Opened
  nested : f.LoopsNest
  loadsFirst : f.LoadsFirst
  covers : f.Covers f
  startsRight : f.StartsRight f
  endsRight : f.EndsRight f
  coversWrites : ∀ p i x, f.fetch p = some i → i = .forceLoad x ∨ (∃ s, i = .store x s) →
    f.isVar x = true → (f.operand x).LiveTo p
  /-- Operands in one register whose intervals overlap have one owner. -/
  owner : ∀ x y r, f.IsValue x → f.IsValue y → (f.operand x).register = some r →
    (f.operand y).register = some r → (f.operand x).Overlaps (f.operand y) →
    ∃ v, f.IsValue v ∧ (f.operand v).register = some r ∧ (v = x ∨ f.Borrows x v) ∧ (v = y ∨ f.Borrows y v)

namespace Allocated

variable (h : f.Allocated)
include h

/-- The interval of what is held after an instruction that does not fill it goes on before and
after the instruction. -/
theorem spans_of_held (hflow : f.Flows p q) (hheld : f.Held q id) (hfetch : f.fetch p = some inst)
    (hjump : inst.target? = none) (hid : id ∉ inst.targets f) :
  (f.operand id).Spans p
  := by
  have hbefore : f.Held p id := by
    rcases hheld.back h.wellFormed h.isLocal hflow with hbefore | ⟨i, hi, hmem⟩
    · exact hbefore
    · rw [hfetch] at hi
      cases hi
      exact absurd hmem hid
  have hstart : ∃ start, (f.operand id).liveStart = some start ∧ start < p := by
    rcases hbefore with ⟨s, -, hdef, -, hlt, -⟩ | ⟨hvar, ⟨s, hopens, hlt⟩, -⟩
    · obtain ⟨start, hstart, hle⟩ := h.covers.define s id hdef (h.wellFormed.isTemp_of_defines hdef).2
      exact ⟨start, hstart, by omega⟩
    · have hlive : (f.operand id).LiveFrom s := by
        rcases hopens.fills with hfill | ⟨v, hfill⟩
        · exact (h.covers.visited.write s _ id (mem_live.mpr hfill) (.inl rfl) hvar).1
        · exact (h.covers.visited.write s _ id (mem_live.mpr hfill) (.inr ⟨v, rfl⟩) hvar).1
      obtain ⟨start, hstart, hle⟩ := hlive
      exact ⟨start, hstart, by omega⟩
  have hstop : ∃ stop, (f.operand id).liveEnd = some stop ∧ p < stop := by
    rcases hheld with ⟨s, r, hdef, hread, -, hle⟩ | ⟨hvar, -, r, hload, hpath⟩
    · have hq : q = p + 1 := by
        cases hflow with
        | next | skip => rfl
        | jump hi hl =>
          rw [hfetch] at hi
          cases hi
          rw [hjump] at hl
          cases hl
      obtain ⟨stop, hstop, hle'⟩ := h.covers.read r id hread (h.wellFormed.isTemp_of_defines hdef).2
      exact ⟨stop, hstop, by omega⟩
    · obtain ⟨stop, hstop, -, hlt⟩ := h.covers.liveTo_of_path h.wellFormed h.nested hvar hload
        (.head' hflow hpath)
      refine ⟨stop, hstop, hlt ?_⟩
      rintro t ⟨-, i, l, hi, hl, -⟩
      rw [hfetch] at hi
      cases hi
      rw [hjump] at hl
      cases hl
  obtain ⟨start, hstart, h₁⟩ := hstart
  obtain ⟨stop, hstop, h₂⟩ := hstop
  exact ⟨start, stop, hstart, hstop, h₁, h₂⟩

/-- The interval of a temp starts at its definition. -/
theorem firstPosition_of_defines (hdef : f.DefinesAt p d) :
  (f.operand d).firstPosition = p
  := by
  have htemp := (h.wellFormed.isTemp_of_defines hdef).2
  obtain ⟨start, hstart, -⟩ := h.covers.define p d hdef htemp
  obtain ⟨i, hi, hmem | rfl⟩ := h.startsRight.temp d start htemp hstart
  · rw [h.wellFormed.single p start d hdef ⟨i, hi, hmem⟩]
    simp [Operand.firstPosition, hstart]
  · have hvar := ((h.wellFormed.fits start _ hi).load_var d rfl).2
    rw [isVar_eq_false htemp] at hvar
    cases hvar

/-- An instruction stands in the interval of what it fills. -/
theorem mem_interval_of_targets (hfetch : f.fetch p = some inst) (hd : d ∈ inst.targets f) :
  (f.operand d).firstPosition ≤ p ∧ p ≤ (f.operand d).lastPosition
  := by
  obtain ⟨-, ⟨hdef, htemp⟩ | ⟨hvar, hinst⟩⟩ := (h.wellFormed.fits p inst hfetch).of_mem_targets hd
  · have hdef : f.DefinesAt p d := ⟨inst, hfetch, hdef⟩
    have hfirst := h.firstPosition_of_defines hdef
    refine ⟨Nat.le_of_eq hfirst, ?_⟩
    cases hstop : (f.operand d).liveEnd with
    | none =>
      unfold Operand.firstPosition at hfirst
      simp [Operand.lastPosition, hstop, hfirst]
    | some stop =>
      have hlt := h.wellFormed.lt_of_reads hdef (h.endsRight.temp d stop htemp hstop) htemp
      simp only [Operand.lastPosition, hstop]
      exact Nat.le_of_lt hlt
  · obtain ⟨start, hstart, hle⟩ := (h.covers.visited.write p inst d (mem_live.mpr hfetch) hinst hvar).1
    obtain ⟨stop, hstop, hle'⟩ := h.coversWrites p inst d hfetch hinst hvar
    simp [Operand.firstPosition, Operand.lastPosition, hstart, hstop, hle, hle']

/-- An instruction that does something fills no place of an operand that is held after it and that
it does not fill. -/
theorem home?_ne (hfetch : f.fetch p = some inst) (hidle : inst.isIdle f = false) (hflow : f.Flows p q)
    (hheld : f.Held q id) (hid : id ∉ inst.targets f) (hd : d ∈ inst.targets f) {home : Home}
    (hhome : f.home? id = some home) :
  f.home? d ≠ some home
  := by
  intro hhome'
  have hne : id ≠ d := by
    rintro rfl
    exact hid hd
  have hspans := h.spans_of_held hflow hheld hfetch (Inst.target?_of_mem_targets hd) hid
  obtain ⟨hlt, -⟩ := hheld.isValue h.wellFormed
  have hfits := h.wellFormed.fits p inst hfetch
  obtain ⟨hlt', hcases⟩ := hfits.of_mem_targets hd
  cases home with
  | slot n =>
    exact hne (h.wellFormed.numbered.temp_inj id d n hlt hlt' (kind_of_home?_slot hhome)
      (kind_of_home?_slot hhome'))
  | entry n =>
    exact hne (h.wellFormed.numbered.var_inj id d n hlt hlt' (kind_of_home?_entry hhome)
      (kind_of_home?_entry hhome'))
  | register r =>
    obtain ⟨hvalue, hr⟩ := home?_eq_register.mp hhome
    obtain ⟨hvalue', hr'⟩ := home?_eq_register.mp hhome'
    obtain ⟨h₁, h₂⟩ := hspans.first_lt_last
    obtain ⟨h₃, h₄⟩ := h.mem_interval_of_targets hfetch hd
    obtain ⟨v, hv, hvr, hidv, hdv⟩ := h.owner id d r hvalue hvalue' hr hr' ⟨by omega, by omega⟩
    rcases hdv with rfl | hborrows
    · rcases hidv with rfl | hborrows
      · exact hne rfl
      -- The operand that is held borrows the register from the one that is filled.
      · rcases hcases with ⟨hdef, -⟩ | ⟨hvar, rfl | ⟨s, rfl⟩⟩
        · have hfirst := h.firstPosition_of_defines ⟨inst, hfetch, hdef⟩
          have hle := hborrows.first_le
          omega
        · cases h.loadsFirst _ p _ _ h₁ hborrows.load hfetch rfl
        · exact hborrows.kept hvar p s hfetch ⟨h₁, by omega⟩
    -- The operand that is filled borrows its register, so it is assigned what is there.
    · have hdef : d ∈ inst.defs := by
        rcases hcases with ⟨hdef, -⟩ | ⟨hvar, -⟩
        · exact hdef
        · rw [isVar_eq_false hborrows.temp] at hvar
          cases hvar
      have hload := hborrows.load
      rw [h.firstPosition_of_defines ⟨inst, hfetch, hdef⟩, hfetch] at hload
      cases hload
      have hvalue : (f.isTemp v || f.isVar v) = true := by
        rwa [Bool.or_eq_true]
      simp [Inst.isIdle, Machine.inSameRegister, hvalue, hr', hvr] at hidle

end Allocated

/-! ### Compiled code -/

section Placed

variable {f' g : Function}

/-- Intervals reach as far as they did if only registers differ. -/
theorem Placed.liveTo (h : f'.Placed g) {pos : Nat} (hlive : (f'.operand id).LiveTo pos) :
  (g.operand id).LiveTo pos
  := by
  obtain ⟨r, hr⟩ := h.operand id
  rw [hr]
  exact hlive

/-- Intervals start no later than they did if only registers differ. -/
theorem Placed.liveFrom (h : f'.Placed g) {pos : Nat} (hlive : (f'.operand id).LiveFrom pos) :
  (g.operand id).LiveFrom pos
  := by
  obtain ⟨r, hr⟩ := h.operand id
  rw [hr]
  exact hlive

/-- What borrows a register still does so if only registers differ. -/
theorem Placed.borrows (h : f'.Placed g) {t v : OperandId} (hborrows : f'.Borrows t v) :
  g.Borrows t v
  := by
  constructor
  · rw [h.isTemp_eq]
    exact hborrows.temp
  · rw [h.firstPosition_eq, h.same.fetch_eq]
    exact hborrows.load
  · rw [h.firstPosition_eq, h.firstPosition_eq]
    exact hborrows.first_le
  · rw [h.lastPosition_eq, h.lastPosition_eq]
    exact hborrows.last_le
  · intro hvar p s hp
    rw [h.isVar_eq] at hvar
    rw [h.same.fetch_eq] at hp
    rw [h.firstPosition_eq, h.lastPosition_eq]
    exact hborrows.kept hvar p s hp

/-- Intervals that cover what instructions do cover what they do with registers. -/
theorem Covers.placed (h : f.Covers f') (hp : f'.Placed g) :
  g.Covers g
  := by
  have hsame := h.sameHints.same.trans hp.same
  have hlive := live_congr hsame
  have hvar : ∀ x, g.isVar x = f.isVar x := fun x => isVar_congr (hsame.kind_eq x)
  have htemp : ∀ x, g.isTemp x = f.isTemp x := fun x => isTemp_congr (hsame.kind_eq x)
  refine ⟨⟨.refl g, fun _ => rfl, fun _ => rfl⟩, ?_, ?_, .refl g, ?_, ?_, ?_⟩
  · rintro p t ⟨i, hi, ht⟩ hisTemp
    rw [hsame.fetch_eq] at hi
    rw [htemp] at hisTemp
    exact hp.liveTo (h.read p t ⟨i, hi, ht⟩ hisTemp)
  · rintro p t ⟨i, hi, ht⟩ hisTemp
    rw [hsame.fetch_eq] at hi
    rw [htemp] at hisTemp
    exact hp.liveFrom (h.define p t ⟨i, hi, ht⟩ hisTemp)
  · intro p d x hmem hx
    rw [hlive] at hmem
    rw [hvar] at hx
    obtain ⟨h₁, h₂⟩ := h.visited.load p d x hmem hx
    exact ⟨hp.liveFrom h₁, hp.liveTo h₂⟩
  · intro p i x hmem hi hx
    rw [hlive] at hmem
    rw [hvar] at hx
    obtain ⟨h₁, h₂⟩ := h.visited.write p i x hmem hi hx
    exact ⟨hp.liveFrom h₁, hp.liveTo h₂⟩
  · rintro target jump i l hmem hl hlabel hlt p x ⟨d, hd⟩ hx h₁ h₂
    rw [hlive] at hmem
    rw [hvar] at hx
    rw [hsame.labels_eq] at hlabel
    rw [hsame.fetch_eq] at hd
    exact hp.liveTo (h.visited.loop target jump i l hmem hl hlabel hlt p x ⟨d, hd⟩ hx h₁ h₂)

/-- Intervals that start where code fills their operands do so when registers have been given out.
-/
theorem StartsRight.placed (h : f.StartsRight f') (hp : f'.Placed g) :
  g.StartsRight g
  := by
  have hsame := h.same.trans hp.same
  have hstart : ∀ x p, (g.operand x).liveStart = some p → (f'.operand x).liveStart = some p := by
    intro x p hx
    obtain ⟨r, hr⟩ := hp.operand x
    rwa [hr] at hx
  refine ⟨.refl g, fun t p ht hstart' => ?_, fun x p hx hstart' => ?_⟩
  · rw [isTemp_congr (hsame.kind_eq t)] at ht
    obtain ⟨i, hi, henters⟩ := h.temp t p ht (hstart t p hstart')
    exact ⟨i, (hsame.fetch_eq p).trans hi, henters⟩
  · rw [isVar_congr (hsame.kind_eq x)] at hx
    obtain ⟨i, hi, haccesses⟩ := h.var x p hx (hstart x p hstart')
    exact ⟨i, (hsame.fetch_eq p).trans hi, haccesses⟩

/-- Intervals that end where code reads their operands do so when registers have been given out.
-/
theorem EndsRight.placed (h : f.EndsRight f') (hp : f'.Placed g) :
  g.EndsRight g
  := by
  have hsame := h.same.trans hp.same
  refine ⟨.refl g, fun t p ht hend => ?_⟩
  rw [isTemp_congr (hsame.kind_eq t)] at ht
  obtain ⟨r, hr⟩ := hp.operand t
  rw [hr] at hend
  obtain ⟨i, hi, hread⟩ := h.temp t p ht hend
  exact ⟨i, (hsame.fetch_eq p).trans hi, hread⟩

/-- Operands that the scan leaves in one register have one owner where their intervals overlap. -/
theorem exists_owner_of_allocate {pool : List Register} {a : Allocation} (hstarts : f.StartsRight f')
    (hallocate : f'.allocate pool = .ok (g, a)) {x y : OperandId} (hx : g.IsValue x) (hy : g.IsValue y)
    (hxr : (g.operand x).register = some r) (hyr : (g.operand y).register = some r)
    (hover : (g.operand x).Overlaps (g.operand y)) :
  ∃ v, g.IsValue v ∧ (g.operand v).register = some r ∧ (v = x ∨ g.Borrows x v) ∧ (v = y ∨ g.Borrows y v)
  := by
  obtain ⟨s, hscan, rfl⟩ := exists_scan_of_allocate hallocate
  obtain ⟨owners, now, h⟩ := keeps_scan_placementOrder hstarts hscan
  have hp := h.placed
  unfold IsValue at hx hy
  rw [hp.isTemp_eq, hp.isVar_eq] at hx hy
  unfold Operand.Overlaps at hover
  simp only [hp.firstPosition_eq, hp.lastPosition_eq] at hover
  obtain ⟨v, hv, hvr, hxv, hyv⟩ :=
    h.exists_common_owner (h.mem_done hx hxr) (h.mem_done hy hyr) hxr hyr hover
  refine ⟨v, ?_, hvr, hxv.imp_right hp.borrows, hyv.imp_right hp.borrows⟩
  obtain ⟨⟨-, hvalue⟩, -⟩ := mem_placementOrder.mp (List.mem_reverse.mp (h.owner_done v hv))
  have hcleared := f'.placed_clearRegisters
  unfold IsValue
  rwa [hp.isTemp_eq, hp.isVar_eq, ← hcleared.isTemp_eq, ← hcleared.isVar_eq]

end Placed

end Function

/-- The passes keep code checked, its loops nested and its entry loads at the top. -/
theorem kept_checked :
  Kept fun f => f.Checked ∧ f.LoopsNest ∧ f.LoadsFirst
  := by
  constructor
  · rintro f f' ⟨hchecked, hnest, hfirst⟩ hedit
    have wf := hchecked.wellFormed
    exact ⟨hedit.checked hchecked, hedit.loopsNest wf hnest, hedit.loadsFirst wf hfirst⟩
  · rintro f pos l ⟨hchecked, hnest, hfirst⟩ hfetch
    refine ⟨hchecked.shortened hfetch, Function.loopsNest_shortened hnest hfetch, ?_⟩
    exact hfirst.of_replaced hfetch (Function.fetch_replace hfetch _) rfl

/-- A compilation that gives code has lowered the bytecode, optimized the result and allocated
registers for it. -/
theorem exists_phases {f : Bytecode.Function} {o : Options} {g : Function} (h : compileIR f o = .ok g) :
  ∃ lowered t a, lower f = .ok lowered ∧ optimize lowered o = .ok t ∧
    t.func.allocate o.pool = .ok (g, a)
  := by
  unfold compileIR at h
  cases hvalid : o.validate with
  | error e =>
    rw [hvalid] at h
    cases h
  | ok _ =>
  cases hlower : lower f with
  | error e =>
    simp only [hvalid, hlower, bind, Except.bind] at h
    cases h
  | ok lowered =>
  cases hoptimize : optimize lowered o with
  | error stopped =>
    simp only [hvalid, hlower, hoptimize, bind, Except.bind, Attempt.result] at h
    cases h
  | ok t =>
  cases hallocate : t.func.allocate o.pool with
  | error stopped =>
    simp only [hvalid, hlower, hoptimize, hallocate, bind, Except.bind, Attempt.result] at h
    cases h
  | ok ga =>
    simp only [hvalid, hlower, hoptimize, hallocate, bind, Except.bind, Attempt.result] at h
    cases h
    exact ⟨lowered, t, ga.2, rfl, hoptimize, hallocate⟩

open IR.Function

/-- Compiled code has intervals and registers that fit it, if the stack is empty at jumps and loops
nest. -/
theorem allocated_of_compileIR {f : Bytecode.Function} {o : Options} {g : Function}
    (hcompile : compileIR f o = .ok g) (hempty : f.EmptyAtJumps) (hnest : f.LoopsNest) :
  g.Allocated
  := by
  obtain ⟨lowered, t, a, hlower, hoptimize, hallocate⟩ := exists_phases hcompile
  have wf := Lowering.wellFormed_lower hlower
  have hpending := (Lowering.sound_lower hlower).1
  have hvars : ∀ x ∈ lowered.entryLoads, lowered.isVar x = true := fun _ => isVar_of_mem_entryLoads
  have hctx : ({ options := o } : Context).obsolete = [] := rfl
  obtain ⟨-, hchecked, -⟩ := State.loadVars_lower hlower hempty hctx
  have hloops := loopsNest_withLoads wf (Lowering.loopsNest_lower hlower hempty hnest) hpending hvars
  have hloads := loadsFirst_withLoads hpending (Lowering.fresh_lower hlower).2 lowered.entryLoads
  obtain ⟨f', hf', hintervals⟩ :=
    kept_checked.optimize hlower hempty ⟨hchecked, hloops, hloads⟩ hoptimize
  have hplaced := placed_allocate hintervals hallocate
  obtain ⟨hcovers, hwrites⟩ := covers_intervals hf'.1.wellFormed hintervals
  have hsame := hcovers.sameHints.same.trans hplaced.same
  -- Intervals and registers are one more thing that is found out about operands.
  have hedit : Edit f' g := by
    refine .annotate hsame fun hinted => ?_
    apply hinted.of_sameCode hf'.1.wellFormed hsame
    · intro id
      obtain ⟨r, hr⟩ := hplaced.operand id
      rw [hr]
      exact hcovers.sameHints.constant_eq id
    · intro id _
      left
      obtain ⟨r, hr⟩ := hplaced.operand id
      rw [hr]
      exact hcovers.sameHints.types_eq id
  obtain ⟨hchecked', hnest', hfirst'⟩ := kept_checked.edit f' g hf' hedit
  have hstarts := startsRight_intervals hintervals
  refine ⟨hchecked'.wellFormed, hchecked'.isLocal, hchecked'.opened, hnest', hfirst',
    hcovers.placed hplaced, hstarts.placed hplaced,
    (endsRight_intervals hf'.1.wellFormed hintervals).placed hplaced, ?_, ?_⟩
  · intro p i x hi hinst hx
    rw [hsame.fetch_eq] at hi
    rw [isVar_congr (hsame.kind_eq x)] at hx
    exact hplaced.liveTo (hwrites p i x hi hinst hx)
  · exact fun x y r => exists_owner_of_allocate hstarts hallocate

end IR

end StackCompiler
