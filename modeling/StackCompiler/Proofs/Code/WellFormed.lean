import StackCompiler.Proofs.Code.Positions

/-!
# Well-formed code

Code is `WellFormed` when every instruction has operands of the kinds it takes, and a temp is
defined once and read after its definition.  It is `Local` when a temp is read in the
straight stretch of code that its definition opens: no label stands in between, so wherever
a run comes from, it has just passed the definition.  A temp is `Unread` when no instruction
that is left reads it.
-/

namespace StackCompiler.IR

/-- Whether an operand of this kind can be stored to. -/
def OperandKind.isPlace : OperandKind → Bool
  | var _ | global _ | contents _ => true
  | _ => false

/-- The operands of an instruction are of the kinds it takes: it fills temps and reads
temps, only an assignment reads other operands, and a store goes to a place. -/
structure Inst.Fits (f : Function) (inst : Inst) : Prop where
  def_temp : ∀ t ∈ inst.defs, t < f.operands.size ∧ f.isTemp t = true
  use_lt : ∀ t ∈ inst.uses, t < f.operands.size
  use_temp : ∀ t ∈ inst.uses, f.isTemp t = true ∨ ∃ d, inst = .assign d t
  load_var : ∀ x, inst = .forceLoad x → x < f.operands.size ∧ f.isVar x = true
  store_place : ∀ x s, inst = .store x s → x < f.operands.size ∧ (f.kind x).isPlace = true

/-- Operands that are added do not matter to instructions that are there. -/
theorem Inst.Fits.of_kind {f f' : Function} {inst : Inst} (h : inst.Fits f)
    (hsize : f.operands.size ≤ f'.operands.size)
    (hkind : ∀ id, id < f.operands.size → f'.kind id = f.kind id) :
  inst.Fits f'
  := by
  constructor
  · intro t ht
    obtain ⟨hlt, htemp⟩ := h.def_temp t ht
    exact ⟨Nat.lt_of_lt_of_le hlt hsize, (Function.isTemp_congr (hkind t hlt)).trans htemp⟩
  · intro t ht
    exact Nat.lt_of_lt_of_le (h.use_lt t ht) hsize
  · intro t ht
    rcases h.use_temp t ht with htemp | hd
    · exact .inl ((Function.isTemp_congr (hkind t (h.use_lt t ht))).trans htemp)
    · exact .inr hd
  · intro x hx
    obtain ⟨hlt, hvar⟩ := h.load_var x hx
    exact ⟨Nat.lt_of_lt_of_le hlt hsize, (Function.isVar_congr (hkind x hlt)).trans hvar⟩
  · intro x v hx
    obtain ⟨hlt, hplace⟩ := h.store_place x v hx
    exact ⟨Nat.lt_of_lt_of_le hlt hsize, (hkind x hlt) ▸ hplace⟩

namespace Function

variable {f : Function}

/-- A place is no temp. -/
theorem isTemp_eq_false {x : OperandId} (h : (f.kind x).isPlace = true) :
  f.isTemp x = false
  := by
  rw [Bool.eq_false_iff, ne_eq, isTemp_iff]
  rintro ⟨n, hn⟩
  rw [hn] at h
  cases h

/-- An instruction of the code that is left. -/
def Has (f : Function) (inst : Inst) : Prop := ∃ pos, f.fetch pos = some inst

/-- No label stands after `q` up to `p`. -/
def Straight (f : Function) (q p : Nat) : Prop :=
  ∀ r l, q < r → r ≤ p → f.fetch r ≠ some (.label l)

/-- A temp is defined at a position. -/
def DefinesAt (f : Function) (pos : Nat) (t : OperandId) : Prop :=
  ∃ inst, f.fetch pos = some inst ∧ t ∈ inst.defs

/-- A temp is read at a position. -/
def ReadsAt (f : Function) (pos : Nat) (t : OperandId) : Prop :=
  ∃ inst, f.fetch pos = some inst ∧ t ∈ inst.uses

/-- No instruction reads a temp. -/
def Unread (f : Function) (t : OperandId) : Prop := ∀ pos, ¬ f.ReadsAt pos t

/-- Code in which definitions and labels are in order. -/
structure WellFormed (f : Function) : Prop where
  numbered : f.Numbered
  fits : ∀ pos inst, f.fetch pos = some inst → inst.Fits f
  labels : ∀ l pos, f.labels.at? l = some pos ↔ f.fetch pos = some (.label l)
  single : ∀ p q t, f.DefinesAt p t → f.DefinesAt q t → p = q
  defined : ∀ p t, f.ReadsAt p t → f.isTemp t = true → ∃ q, q < p ∧ f.DefinesAt q t

/-- Code in which no label stands between the definition of a temp and its reads. -/
def Local (f : Function) : Prop :=
  ∀ q p t, f.DefinesAt q t → f.ReadsAt p t → f.Straight q p

theorem Straight.mono {q q' p p' : Nat} (h : f.Straight q p) (hq : q ≤ q') (hp : p' ≤ p) :
  f.Straight q' p'
  := by
  intro r l hr hr'
  exact h r l (Nat.lt_of_le_of_lt hq hr) (Nat.le_trans hr' hp)

theorem Straight.trans {q r p : Nat} (h : f.Straight q r) (h' : f.Straight r p) :
  f.Straight q p
  := by
  intro s l hs hs'
  rcases Nat.lt_or_ge r s with hlt | hge
  · exact h' s l hlt hs'
  · exact h s l hs hge

/-- A temp has one definition only. -/
theorem WellFormed.eq_of_defs (wf : f.WellFormed) {p q : Nat} {i j : Inst} {t : OperandId}
    (hi : f.fetch p = some i) (hj : f.fetch q = some j) (hti : t ∈ i.defs) (htj : t ∈ j.defs) :
  p = q ∧ i = j
  := by
  obtain rfl := wf.single p q t ⟨i, hi, hti⟩ ⟨j, hj, htj⟩
  rw [hi] at hj
  exact ⟨rfl, Option.some.inj hj⟩

/-- A temp is read after its definition. -/
theorem WellFormed.lt_of_reads (wf : f.WellFormed) {p q : Nat} {t : OperandId}
    (hdef : f.DefinesAt q t) (hread : f.ReadsAt p t) (ht : f.isTemp t = true) :
  q < p
  := by
  obtain ⟨q', hlt, hdef'⟩ := wf.defined p t hread ht
  rwa [wf.single q q' t hdef hdef']

/-- What an instruction defines is a temp. -/
theorem WellFormed.isTemp_of_defines (wf : f.WellFormed) {q : Nat} {t : OperandId}
    (h : f.DefinesAt q t) :
  t < f.operands.size ∧ f.isTemp t = true
  := by
  obtain ⟨inst, hi, ht⟩ := h
  exact (wf.fits q inst hi).def_temp t ht

/-- A temp that an instruction other than an assignment reads. -/
theorem WellFormed.isTemp_of_uses (wf : f.WellFormed) {p : Nat} {inst : Inst}
    (hfetch : f.fetch p = some inst) {t : OperandId} (ht : t ∈ inst.uses)
    (hinst : ∀ d, inst ≠ .assign d t) :
  f.isTemp t = true
  := by
  rcases (wf.fits p inst hfetch).use_temp t ht with htemp | ⟨d, hd⟩
  · exact htemp
  · exact absurd hd (hinst d)

end Function

/-! ### Consumers -/

/-- An instruction that reads a temp but leaves it to another: an assertion, or an
assignment to an obsolete temp. -/
def Inst.IsLight (obsolete : IdSet) (t : OperandId) (inst : Inst) : Prop :=
  (∃ kind, inst = .assertion kind t) ∨ ∃ d ∈ obsolete, inst = .assign d t

/-- A temp has one consumer, which reads it once, and what else reads it comes before. -/
structure Function.Linear (f : Function) (obsolete : IdSet) : Prop where
  last : ∀ p q i t, f.fetch p = some i → t ∈ i.uses → f.isTemp t = true → ¬ i.IsLight obsolete t →
    f.ReadsAt q t → q ≤ p
  once : ∀ p i, f.fetch p = some i → i.uses.Nodup

theorem Inst.IsLight.mono {o o' : IdSet} (h : o ⊆ o') {t : OperandId} {inst : Inst}
    (hl : inst.IsLight o t) :
  inst.IsLight o' t
  := by
  rcases hl with hl | ⟨d, hd, hl⟩
  · exact .inl hl
  · exact .inr ⟨d, h hd, hl⟩

theorem Function.Linear.mono {f : Function} {o o' : IdSet} (h : o ⊆ o') (hl : f.Linear o) :
  f.Linear o'
  := by
  refine ⟨?_, hl.once⟩
  intro p q i t hi hu ht hlight hq
  exact hl.last p q i t hi hu ht (fun hl => hlight (hl.mono h)) hq

end StackCompiler.IR
