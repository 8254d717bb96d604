import StackCompiler.IR.Interval
import StackCompiler.Proofs.Passes.EditStructure

/-!
# What live intervals cover

Visiting an instruction only widens intervals, so once all are visited the interval of a temp
goes from its definition to its reads, and that of a variable from its accesses to its
reads and, where a loop reads it, to the jump back.  Intervals start nowhere else:
`StartsRight` says that a definition or an access stands where one starts.  `EndsRight` says
that those of temps end where they are read.
-/

namespace StackCompiler

/-! ### Attempts -/

/-- A result that is there was reached without an error. -/
theorem eq_ok_of_toOption {ε α : Type} {x : Except ε α} {a : α} (h : x.toOption = some a) :
  x = .ok a
  := by
  cases x with
  | error e => cases h
  | ok b =>
    cases h
    rfl

namespace Attempt

variable {σ α : Type}

/-- The state in which an attempt left things. -/
def state (a : Attempt σ σ) : σ := a.outcome.1

/-- An attempt followed by another gives a result when both do. -/
theorem bind_eq_ok {β : Type} {x : Attempt σ α} {next : α → Attempt σ β} {b : β}
    (h : x >>= next = .ok b) :
  ∃ a, x = .ok a ∧ next a = .ok b
  := by
  cases x with
  | error stopped => cases h
  | ok a => exact ⟨a, rfl, h⟩

/-- What each step of a sequence of attempts keeps true is true in the end, also when one
of them stopped. -/
theorem state_foldlM (P : σ → Prop) (step : σ → α → Attempt σ σ) (xs : List α) {s : σ} (hs : P s)
    (h : ∀ s, P s → ∀ x ∈ xs, P (state (step s x))) :
  P (state (xs.foldlM step s))
  := by
  induction xs generalizing s with
  | nil => exact hs
  | cons x xs ih =>
    have hx := h s hs x List.mem_cons_self
    rw [List.foldlM_cons]
    cases hstep : step s x with
    | error stopped =>
      rw [hstep] at hx
      exact hx
    | ok s' =>
      rw [hstep] at hx
      exact ih hx fun s hs x hmem => h s hs x (List.mem_cons_of_mem _ hmem)

/-- A sequence of attempts gives a result if each step does. -/
theorem exists_foldlM (P : σ → Prop) (step : σ → α → Attempt σ σ) (xs : List α) {s : σ} (hs : P s)
    (h : ∀ s, P s → ∀ x ∈ xs, ∃ s', step s x = .ok s' ∧ P s') :
  ∃ s', xs.foldlM step s = .ok s' ∧ P s'
  := by
  induction xs generalizing s with
  | nil => exact ⟨s, rfl, hs⟩
  | cons x xs ih =>
    obtain ⟨s', hstep, hs'⟩ := h s hs x List.mem_cons_self
    rw [List.foldlM_cons, hstep]
    exact ih hs' fun s hs x hmem => h s hs x (List.mem_cons_of_mem _ hmem)

/-- A sequence of attempts that stops does so at one of its steps. -/
theorem exists_error_foldlM (P : σ → Prop) (step : σ → α → Attempt σ σ) (xs : List α) {s : σ}
    (hs : P s) (h : ∀ s, P s → ∀ x ∈ xs, ∀ s', step s x = .ok s' → P s') {stopped : Stopped σ}
    (herror : xs.foldlM step s = .error stopped) :
  ∃ s' x, x ∈ xs ∧ P s' ∧ step s' x = .error stopped
  := by
  induction xs generalizing s with
  | nil => cases herror
  | cons x xs ih =>
    rw [List.foldlM_cons] at herror
    cases hstep : step s x with
    | error stopped' =>
      rw [hstep] at herror
      cases herror
      exact ⟨s, x, List.mem_cons_self, hs, hstep⟩
    | ok s' =>
      rw [hstep] at herror
      obtain ⟨s₁, y, hy, hs₁, hy'⟩ := ih (h s hs x List.mem_cons_self s' hstep)
        (fun s hs x hmem => h s hs x (List.mem_cons_of_mem _ hmem)) herror
      exact ⟨s₁, y, List.mem_cons_of_mem _ hy, hs₁, hy'⟩

end Attempt

namespace IR

/-! ### Single operands -/

namespace Operand

/-- The interval goes on at least to a position. -/
def LiveTo (o : Operand) (pos : Nat) : Prop := ∃ stop, o.liveEnd = some stop ∧ pos ≤ stop

/-- The interval starts at a position or before. -/
def LiveFrom (o : Operand) (pos : Nat) : Prop := ∃ start, o.liveStart = some start ∧ start ≤ pos

/-- The interval of one operand covers that of another, which is the same otherwise. -/
structure Widens (o o' : Operand) : Prop where
  kind_eq : o'.kind = o.kind
  types_eq : o'.types = o.types
  constant_eq : o'.constant = o.constant
  liveTo : ∀ pos, o.LiveTo pos → o'.LiveTo pos
  liveFrom : ∀ pos, o.LiveFrom pos → o'.LiveFrom pos

theorem Widens.refl (o : Operand) :
  o.Widens o
  := ⟨rfl, rfl, rfl, fun _ h => h, fun _ h => h⟩

theorem Widens.trans {o o' o'' : Operand} (h : o.Widens o') (h' : o'.Widens o'') :
  o.Widens o''
  := ⟨h'.kind_eq.trans h.kind_eq, h'.types_eq.trans h.types_eq, h'.constant_eq.trans h.constant_eq,
    fun pos hp => h'.liveTo pos (h.liveTo pos hp), fun pos hp => h'.liveFrom pos (h.liveFrom pos hp)⟩

theorem LiveTo.mono {o : Operand} {p q : Nat} (h : o.LiveTo q) (hpq : p ≤ q) :
  o.LiveTo p
  := by
  obtain ⟨stop, hstop, hle⟩ := h
  exact ⟨stop, hstop, Nat.le_trans hpq hle⟩

/-- A definition at `pos` only widens an interval, which then starts at `pos` or before. -/
theorem definedAt_spec (pos : Nat) (o : Operand) :
  o.Widens (o.definedAt pos) ∧ (o.definedAt pos).LiveFrom pos
  := by
  unfold definedAt
  cases hstart : o.liveStart with
  | none =>
    refine ⟨⟨rfl, rfl, rfl, fun _ h => h, ?_⟩, ⟨pos, rfl, Nat.le_refl _⟩⟩
    rintro p ⟨start, h, -⟩
    rw [hstart] at h
    cases h
  | some start =>
    refine ⟨⟨rfl, rfl, rfl, fun _ h => h, ?_⟩, ⟨min start pos, rfl, Nat.min_le_right ..⟩⟩
    rintro p ⟨start', h, hle⟩
    rw [hstart] at h
    cases h
    exact ⟨min start pos, rfl, Nat.le_trans (Nat.min_le_left ..) hle⟩

/-- A read at `pos` only widens an interval, which then goes on to `pos`. -/
theorem readAt_spec (pos : Nat) (o : Operand) :
  o.Widens (o.readAt pos) ∧ (o.readAt pos).LiveTo pos
  := by
  unfold readAt
  cases hstop : o.liveEnd with
  | none =>
    refine ⟨⟨rfl, rfl, rfl, ?_, fun _ h => h⟩, ⟨pos, rfl, Nat.le_refl _⟩⟩
    rintro p ⟨stop, h, -⟩
    rw [hstop] at h
    cases h
  | some stop =>
    refine ⟨⟨rfl, rfl, rfl, ?_, fun _ h => h⟩, ⟨max stop pos, rfl, Nat.le_max_right ..⟩⟩
    rintro p ⟨stop', h, hle⟩
    rw [hstop] at h
    cases h
    exact ⟨max stop pos, rfl, Nat.le_trans hle (Nat.le_max_left ..)⟩

/-- A write at `pos` only widens an interval, which then starts at `pos` or before, and has an
end. -/
theorem writtenAt_spec (pos : Nat) (o : Operand) :
  o.Widens (o.writtenAt pos) ∧ (o.writtenAt pos).LiveFrom pos ∧ (o.writtenAt pos).LiveTo 0
  := by
  obtain ⟨hw, hfrom⟩ := definedAt_spec pos o
  refine ⟨⟨rfl, rfl, rfl, ?_, hw.liveFrom⟩, hfrom, ⟨_, rfl, Nat.zero_le _⟩⟩
  rintro p ⟨stop, hstop, hle⟩
  refine ⟨stop, ?_, hle⟩
  have h : (o.definedAt pos).liveEnd = some stop := hstop
  simp [writtenAt, h]

/-- Extending an interval to `pos` only widens it, and one that has an end then goes on to `pos`.
-/
theorem extendedTo_spec (pos : Nat) (o : Operand) :
  o.Widens (o.extendedTo pos) ∧ (o.LiveTo 0 → (o.extendedTo pos).LiveTo pos)
  := by
  refine ⟨⟨rfl, rfl, rfl, ?_, fun _ h => h⟩, ?_⟩
  · rintro p ⟨stop, hstop, hle⟩
    refine ⟨max stop pos, ?_, Nat.le_trans hle (Nat.le_max_left ..)⟩
    simp [extendedTo, hstop]
  · rintro ⟨stop, hstop, -⟩
    refine ⟨max stop pos, ?_, Nat.le_max_right ..⟩
    simp [extendedTo, hstop]

end Operand

/-! ### Functions -/

namespace Function

variable {f f' g g' : Function} {pos p : Nat} {inst : Inst} {x : OperandId} {change : Operand → Operand}

/-- The intervals of one function cover those of another, which is the same otherwise. -/
structure Widens (f f' : Function) : Prop where
  same : f.SameCode f'
  operand : ∀ id, (f.operand id).Widens (f'.operand id)

theorem Widens.refl (f : Function) :
  f.Widens f
  := ⟨.refl f, fun _ => .refl _⟩

theorem Widens.trans {f'' : Function} (h : f.Widens f') (h' : f'.Widens f'') :
  f.Widens f''
  := ⟨h.same.trans h'.same, fun id => (h.operand id).trans (h'.operand id)⟩

/-- A change of one operand that only widens its interval only widens the intervals of the
function. -/
theorem widens_modify (f : Function) (id : OperandId) (h : ∀ o : Operand, o.Widens (change o)) :
  f.Widens (f.modify id change)
  := by
  refine ⟨sameCode_modify id change fun o => (h o).kind_eq, fun other => ?_⟩
  rw [operand_modify]
  split
  · rename_i hid
    rw [hid.1]
    exact h _
  · exact .refl _

/-- Widening several operands by the same change. -/
theorem widens_modifyAll (f : Function) (ids : List OperandId) (h : ∀ o : Operand, o.Widens (change o)) :
  f.Widens (ids.foldl (fun f id => f.modify id change) f)
  := by
  induction ids generalizing f with
  | nil => exact .refl f
  | cons id ids ih => exact (f.widens_modify id h).trans (ih _)

/-- What a widening change brings about holds of every operand that is changed. -/
theorem modifyAll_spec {ids : List OperandId} {P : Operand → Prop}
    (hwiden : ∀ o : Operand, o.Widens (change o)) (hP : ∀ o o', Operand.Widens o o' → P o → P o')
    (f : Function) {id : OperandId} (hid : id ∈ ids) (hlt : id < f.operands.size)
    (h : ∀ o, (f.operand id).Widens o → P (change o)) :
  P ((ids.foldl (fun f id => f.modify id change) f).operand id)
  := by
  induction ids generalizing f with
  | nil => cases hid
  | cons other ids ih =>
    rw [List.foldl_cons]
    by_cases ho : other = id
    · subst ho
      refine hP _ _ ((widens_modifyAll _ ids hwiden).operand other) ?_
      rw [operand_modify_self _ hlt]
      exact h _ (.refl _)
    · refine ih (f.modify other change) ((List.mem_cons.mp hid).resolve_left fun h => ho h.symm) ?_ ?_
      · rwa [size_modify]
      · intro o hw
        exact h o (((f.widens_modify other hwiden).operand id).trans hw)

/-- Visiting the instruction at `pos` for temps only widens intervals.  Afterwards, temps that it
reads live on to `pos`, and temps that it defines live from `pos` on. -/
theorem visitTemps_spec (f : Function) (pos : Nat) (inst : Inst) :
  f.Widens (f.visitTemps (pos, inst)) ∧
    (∀ t ∈ inst.uses, f.isTemp t = true → t < f.operands.size →
      ((f.visitTemps (pos, inst)).operand t).LiveTo pos) ∧
    ∀ t ∈ inst.defs, f.isTemp t = true → t < f.operands.size →
      ((f.visitTemps (pos, inst)).operand t).LiveFrom pos
  := by
  have hread : ∀ o : Operand, o.Widens (o.readAt pos) := fun o => (Operand.readAt_spec pos o).1
  have hdef : ∀ o : Operand, o.Widens (o.definedAt pos) := fun o => (Operand.definedAt_spec pos o).1
  have h₁ := f.widens_modifyAll (inst.uses.filter f.isTemp) hread
  have h₂ : ∀ (g : Function) (ids : List OperandId),
      g.Widens (ids.foldl (fun f id => f.modify id (·.definedAt pos)) g) :=
    fun g ids => g.widens_modifyAll ids hdef
  refine ⟨h₁.trans (h₂ _ _), ?_, ?_⟩
  · intro t ht htemp hlt
    apply ((h₂ _ _).operand t).liveTo
    apply modifyAll_spec (P := fun o => o.LiveTo pos) hread (fun o o' h => h.liveTo pos) f ?_ hlt
    · exact fun o _ => (Operand.readAt_spec pos o).2
    · exact List.mem_filter.mpr ⟨ht, htemp⟩
  · intro t ht htemp hlt
    apply modifyAll_spec (P := fun o => o.LiveFrom pos) hdef (fun o o' h => h.liveFrom pos)
    · exact List.mem_filter.mpr ⟨ht, (isTemp_congr (h₁.same.kind_eq t)).trans htemp⟩
    · rwa [h₁.same.size_eq]
    · exact fun o _ => (Operand.definedAt_spec pos o).2

/-- Visiting instructions only widens intervals, and every temp that one of them uses or defines is
then live up to its position or from it on. -/
theorem visitAllTemps_spec (f : Function) (entries : List (Nat × Inst)) :
  f.Widens (entries.foldl visitTemps f) ∧
    ∀ pos inst, (pos, inst) ∈ entries →
      (∀ t ∈ inst.uses, f.isTemp t = true → t < f.operands.size →
        ((entries.foldl visitTemps f).operand t).LiveTo pos) ∧
      ∀ t ∈ inst.defs, f.isTemp t = true → t < f.operands.size →
        ((entries.foldl visitTemps f).operand t).LiveFrom pos
  := by
  induction entries generalizing f with
  | nil => exact ⟨.refl f, nofun⟩
  | cons e entries ih =>
    obtain ⟨pos, inst⟩ := e
    obtain ⟨h₁, hread, hdef⟩ := f.visitTemps_spec pos inst
    obtain ⟨h₂, hrest⟩ := ih (f.visitTemps (pos, inst))
    rw [List.foldl_cons]
    refine ⟨h₁.trans h₂, ?_⟩
    intro p i hmem
    rcases List.mem_cons.mp hmem with heq | hmem
    · cases heq
      refine ⟨fun t ht htemp hlt => ?_, fun t ht htemp hlt => ?_⟩
      · exact (h₂.operand t).liveTo pos (hread t ht htemp hlt)
      · exact (h₂.operand t).liveFrom pos (hdef t ht htemp hlt)
    · obtain ⟨hread', hdef'⟩ := hrest p i hmem
      refine ⟨fun t ht htemp hlt => ?_, fun t ht htemp hlt => ?_⟩
      · exact hread' t ht ((isTemp_congr (h₁.same.kind_eq t)).trans htemp) (by rwa [h₁.same.size_eq])
      · exact hdef' t ht ((isTemp_congr (h₁.same.kind_eq t)).trans htemp) (by rwa [h₁.same.size_eq])

/-! ### Variables -/

theorem live_congr (h : f.SameCode f') :
  f'.live = f.live
  := by
  unfold live isRemoved
  rw [h.code_eq, h.pending_eq]

/-- The variables found in a loop are those that are loaded between its target and its jump. -/
theorem mem_varsReadBetween {target jump : Nat} :
  x ∈ f.varsReadBetween target jump ↔
    ∃ p, f.LoadsAt p x ∧ target ≤ p ∧ p ≤ jump ∧ f.isVar x = true
  := by
  unfold varsReadBetween
  rw [List.mem_filterMap]
  constructor
  · rintro ⟨⟨p, i⟩, hp, h⟩
    cases i with
    | assign d s =>
      simp only [Bool.and_eq_true, decide_eq_true_eq, Option.ite_none_right_eq_some,
        Option.some.injEq] at h
      obtain ⟨⟨⟨h₁, h₂⟩, h₃⟩, rfl⟩ := h
      exact ⟨p, ⟨d, mem_live.mp hp⟩, h₁, h₂, h₃⟩
    | _ => cases h
  · rintro ⟨p, ⟨d, hd⟩, h₁, h₂, h₃⟩
    refine ⟨(p, .assign d x), mem_live.mpr hd, ?_⟩
    simp [h₁, h₂, h₃]

/-- Visiting a loop only widens intervals.  Afterwards, a variable that is loaded inside it and
has an interval lives on to the jump back. -/
theorem extendLoop_spec (f : Function) (target jump : Nat) :
  f.Widens (f.extendLoop target jump) ∧
    ∀ p x, f.LoadsAt p x → f.isVar x = true → x < f.operands.size → target ≤ p → p ≤ jump →
      (f.operand x).LiveTo 0 → ((f.extendLoop target jump).operand x).LiveTo jump
  := by
  have hwiden : ∀ o : Operand, o.Widens (o.extendedTo jump) := fun o =>
    (Operand.extendedTo_spec jump o).1
  refine ⟨f.widens_modifyAll _ hwiden, ?_⟩
  intro p x hp hx hlt h₁ h₂ hlive
  apply modifyAll_spec (P := fun o => o.LiveTo jump) hwiden (fun o o' h => h.liveTo jump) f ?_ hlt
  · exact fun o ho => (Operand.extendedTo_spec jump o).2 (ho.liveTo 0 hlive)
  · exact mem_varsReadBetween.mpr ⟨p, hp, h₁, h₂, hx⟩

/-- What a visit for variables can do: a read, a write or a jump back extends intervals. -/
theorem visitVars_cases (h : g.visitVars (pos, inst) = .ok g') :
  g' = g ∨
    (∃ d x, inst = .assign d x ∧ g.isVar x = true ∧ g' = g.modify x fun o => (o.definedAt pos).readAt pos) ∨
    (∃ x, (inst = .forceLoad x ∨ g.isVar x = true ∧ ∃ s, inst = .store x s) ∧
      g' = g.modify x (·.writtenAt pos)) ∨
    ∃ target, g' = g.extendLoop target pos
  := by
  have hjump : ∀ l, (do
      let target ← Attempt.orStop g (g.labelPosition l)
      return if target < pos then g.extendLoop target pos else g) = .ok g' →
      g' = g ∨ ∃ target, g' = g.extendLoop target pos := by
    intro l hl
    obtain ⟨target, -, hl⟩ := Attempt.bind_eq_ok hl
    cases hl
    split
    · exact .inr ⟨target, rfl⟩
    · exact .inl rfl
  cases inst with
  | assign d x =>
    cases h
    split
    · exact .inr (.inl ⟨d, x, rfl, ‹_›, rfl⟩)
    · exact .inl rfl
  | store x s =>
    cases h
    split
    · exact .inr (.inr (.inl ⟨x, .inr ⟨‹_›, s, rfl⟩, rfl⟩))
    · exact .inl rfl
  | forceLoad x =>
    cases h
    exact .inr (.inr (.inl ⟨x, .inl rfl, rfl⟩))
  | jump l | shortJump l => exact (hjump l h).imp_right fun h => .inr (.inr h)
  | condJump cond l => exact (hjump l h).imp_right fun h => .inr (.inr h)
  | _ =>
    cases h
    exact .inl rfl

/-- Visiting an instruction for variables only widens intervals, even if the visit fails. -/
theorem widens_visitVars (f : Function) (entry : Nat × Inst) :
  f.Widens (Attempt.state (f.visitVars entry))
  := by
  obtain ⟨pos, inst⟩ := entry
  have hjump : ∀ l, f.Widens (Attempt.state (do
      let target ← Attempt.orStop f (f.labelPosition l)
      return if target < pos then f.extendLoop target pos else f)) := by
    intro l
    unfold labelPosition
    cases f.labels.at? l with
    | none => exact .refl f
    | some target =>
      change f.Widens (if target < pos then f.extendLoop target pos else f)
      split
      · exact (f.extendLoop_spec target pos).1
      · exact .refl f
  cases inst with
  | assign d x =>
    change f.Widens (if f.isVar x then _ else f)
    split
    · refine f.widens_modify x fun o => ?_
      exact (Operand.definedAt_spec pos o).1.trans (Operand.readAt_spec pos _).1
    · exact .refl f
  | store x s =>
    change f.Widens (if f.isVar x then _ else f)
    split
    · exact f.widens_modify x fun o => (Operand.writtenAt_spec pos o).1
    · exact .refl f
  | forceLoad x => exact f.widens_modify x fun o => (Operand.writtenAt_spec pos o).1
  | jump l | shortJump l => exact hjump l
  | condJump cond l => exact hjump l
  | _ => exact .refl f

/-- The intervals of variables cover what some of the instructions do to them. -/
structure Visited (f g : Function) (done : List (Nat × Inst)) : Prop where
  same : f.SameCode g
  load : ∀ p d x, (p, .assign d x) ∈ done → f.isVar x = true →
    (g.operand x).LiveFrom p ∧ (g.operand x).LiveTo p
  write : ∀ p i x, (p, i) ∈ done → i = .forceLoad x ∨ (∃ s, i = .store x s) → f.isVar x = true →
    (g.operand x).LiveFrom p ∧ (g.operand x).LiveTo 0
  loop : ∀ target jump i l, (jump, i) ∈ done → i.target? = some l → f.labels.at? l = some target →
    target < jump → ∀ p x, f.LoadsAt p x → f.isVar x = true → target ≤ p → p ≤ jump →
      (g.operand x).LiveTo jump

theorem isVar_lt (h : f.isVar x = true) :
  x < f.operands.size
  := by
  by_contra hge
  rw [isVar_of_size_le (Nat.le_of_not_lt hge)] at h
  cases h

/-- Intervals that are widened still cover what the instructions that were visited do to
variables. -/
theorem Visited.widen {done : List (Nat × Inst)} (h : f.Visited g done) (hw : g.Widens g') :
  f.Visited g' done
  := by
  constructor
  · exact h.same.trans hw.same
  · intro p d x hp hx
    obtain ⟨h₁, h₂⟩ := h.load p d x hp hx
    exact ⟨(hw.operand x).liveFrom p h₁, (hw.operand x).liveTo p h₂⟩
  · intro p i x hp hi hx
    obtain ⟨h₁, h₂⟩ := h.write p i x hp hi hx
    exact ⟨(hw.operand x).liveFrom p h₁, (hw.operand x).liveTo 0 h₂⟩
  · intro target jump i l hj hi hl hlt p x hp hx h₁ h₂
    exact (hw.operand x).liveTo jump (h.loop target jump i l hj hi hl hlt p x hp hx h₁ h₂)

/-- A visit covers what its instruction does, once those before it are visited. -/
theorem Visited.visit {done : List (Nat × Inst)} (h : f.Visited g done)
    (hdone : ∀ p i, f.fetch p = some i → p < pos → (p, i) ∈ done) (hfetch : f.fetch pos = some inst)
    (hvisit : g.visitVars (pos, inst) = .ok g') :
  f.Visited g' (done ++ [(pos, inst)])
  := by
  have hw : g.Widens g' := by
    have := g.widens_visitVars (pos, inst)
    rwa [hvisit] at this
  have hvar : ∀ x, g.isVar x = f.isVar x := fun x => isVar_congr (h.same.kind_eq x)
  have hlt : ∀ x, f.isVar x = true → x < g.operands.size := by
    intro x hx
    rw [h.same.size_eq]
    exact isVar_lt hx
  have h' := h.widen hw
  have hcases : ∀ {p i}, (p, i) ∈ done ++ [(pos, inst)] → (p, i) ∈ done ∨ p = pos ∧ i = inst := by
    intro p i hmem
    rcases List.mem_append.mp hmem with hmem | hmem
    · exact .inl hmem
    · cases List.mem_singleton.mp hmem
      exact .inr ⟨rfl, rfl⟩
  constructor
  · exact h'.same
  · intro p d x hmem hx
    rcases hcases hmem with hmem | ⟨rfl, rfl⟩
    · exact h'.load p d x hmem hx
    · simp only [visitVars, hvar, hx, if_true] at hvisit
      cases hvisit
      rw [operand_modify_self _ (hlt x hx)]
      have h₁ := Operand.definedAt_spec p (g.operand x)
      have h₂ := Operand.readAt_spec p ((g.operand x).definedAt p)
      exact ⟨h₂.1.liveFrom p h₁.2, h₂.2⟩
  · intro p i x hmem hi hx
    rcases hcases hmem with hmem | ⟨rfl, rfl⟩
    · exact h'.write p i x hmem hi hx
    · have hop : g'.operand x = (g.operand x).writtenAt p := by
        rcases hi with rfl | ⟨s, rfl⟩
        · cases hvisit
          exact operand_modify_self _ (hlt x hx)
        · simp only [visitVars, hvar, hx, if_true] at hvisit
          cases hvisit
          exact operand_modify_self _ (hlt x hx)
      rw [hop]
      exact (Operand.writtenAt_spec p (g.operand x)).2
  · intro target jump i l hmem hi hl hlt' p x hp hx h₁ h₂
    rcases hcases hmem with hmem | ⟨rfl, rfl⟩
    · exact h'.loop target jump i l hmem hi hl hlt' p x hp hx h₁ h₂
    · -- The reads in the loop come before the jump and are visited.
      have hlabel : g.labels.at? l = some target := by rw [h.same.labels_eq, hl]
      have hg' : g' = g.extendLoop target jump := by
        cases i <;> cases hi <;>
          simp [visitVars, labelPosition, hlabel, Attempt.orStop, bind, Except.bind, pure, Except.pure,
            hlt'] at hvisit <;> exact hvisit.symm
      obtain ⟨d, hd⟩ := hp
      have hne : p ≠ jump := by
        rintro rfl
        rw [hfetch] at hd
        cases hd
        cases hi
      have hload := (h.load p d x (hdone p _ hd (Nat.lt_of_le_of_ne h₂ hne)) hx).2
      rw [hg']
      refine (g.extendLoop_spec target jump).2 p x ⟨d, ?_⟩ ?_ (hlt x hx) h₁ h₂ ?_
      · rw [h.same.fetch_eq, hd]
      · rw [hvar, hx]
      · exact hload.mono (Nat.zero_le _)

/-- If the intervals cover what the first instructions do to variables, and visiting the rest
succeeds, they cover what all instructions do. -/
theorem visited_foldlM (done rest : List (Nat × Inst)) (hlive : f.live = done ++ rest)
    (h : f.Visited g done) (hfold : rest.foldlM visitVars g = .ok g') :
  f.Visited g' f.live
  := by
  induction rest generalizing g done with
  | nil =>
    cases hfold
    rwa [hlive, List.append_nil]
  | cons e rest ih =>
    obtain ⟨pos, inst⟩ := e
    rw [List.foldlM_cons] at hfold
    cases hvisit : g.visitVars (pos, inst) with
    | error stopped =>
      rw [hvisit] at hfold
      cases hfold
    | ok g₁ =>
      rw [hvisit] at hfold
      refine ih (done ++ [(pos, inst)]) (by rw [hlive, List.append_assoc]; rfl)
        (h.visit ?_ ?_ hvisit) hfold
      · intro p i hi hlt
        have hmem := mem_live.mpr hi
        rw [hlive] at hmem
        have hsorted := f.pairwise_live
        rw [hlive, List.pairwise_append] at hsorted
        rcases List.mem_append.mp hmem with hmem | hmem
        · exact hmem
        · rcases List.mem_cons.mp hmem with heq | hmem
          · cases heq
            exact absurd hlt (Nat.lt_irrefl _)
          · have := (List.pairwise_cons.mp hsorted.2.1).1 (p, i) hmem
            exact absurd hlt (Nat.lt_asymm this)
      · apply mem_live.mp
        rw [hlive]
        exact List.mem_append_right _ List.mem_cons_self

theorem operand_clearIntervals (f : Function) (id : OperandId) :
  f.clearIntervals.operand id = (f.operand id).clearInterval
  := by
  unfold clearIntervals operand
  simp only [Array.getD_eq_getD_getElem?, Array.getElem?_map]
  cases f.operands[id]? <;> rfl

/-- Clearing intervals does not touch the code. -/
theorem sameCode_clearIntervals (f : Function) :
  f.SameCode f.clearIntervals
  := by
  refine ⟨rfl, rfl, rfl, rfl, Array.size_map .., fun id => ?_⟩
  unfold kind
  rw [operand_clearIntervals]
  rfl

/-- A function that differs in intervals only. -/
structure SameHints (f f' : Function) : Prop where
  same : f.SameCode f'
  types_eq : ∀ id, (f'.operand id).types = (f.operand id).types
  constant_eq : ∀ id, (f'.operand id).constant = (f.operand id).constant

theorem Widens.sameHints (h : f.Widens f') :
  f.SameHints f'
  := ⟨h.same, fun id => (h.operand id).types_eq, fun id => (h.operand id).constant_eq⟩

theorem SameHints.trans {f'' : Function} (h : f.SameHints f') (h' : f'.SameHints f'') :
  f.SameHints f''
  := ⟨h.same.trans h'.same, fun id => (h'.types_eq id).trans (h.types_eq id),
    fun id => (h'.constant_eq id).trans (h.constant_eq id)⟩

theorem sameHints_clearIntervals (f : Function) :
  f.SameHints f.clearIntervals
  := by
  refine ⟨f.sameCode_clearIntervals, fun id => ?_, fun id => ?_⟩ <;> rw [operand_clearIntervals] <;> rfl

/-- The analysis finds out about intervals only, also when it stops. -/
theorem sameHints_readIntervals (f : Function) :
  f.SameHints (Attempt.state f.readIntervals)
  := by
  refine (f.sameHints_clearIntervals.trans (visitAllTemps_spec _ f.live).1.sameHints).trans ?_
  refine Widens.sameHints (Attempt.state_foldlM (fun g => Widens _ g) visitVars f.live (.refl _) ?_)
  exact fun g hg e _ => hg.trans (g.widens_visitVars e)

/-- Intervals that cover what instructions do. -/
structure Covers (f f' : Function) : Prop where
  sameHints : f.SameHints f'
  read : ∀ p t, f.ReadsAt p t → f.isTemp t = true → (f'.operand t).LiveTo p
  define : ∀ p t, f.DefinesAt p t → f.isTemp t = true → (f'.operand t).LiveFrom p
  visited : f.Visited f' f.live

/-- What an instruction reads and defines is in the interval at its position, in any code. -/
theorem readIntervals_spec (h : f.readIntervals = .ok f') :
  f.Visited f' f.live ∧ ∀ p i, f.fetch p = some i →
    (∀ t ∈ i.uses, f.isTemp t = true → t < f.operands.size → (f'.operand t).LiveTo p) ∧
    ∀ t ∈ i.defs, f.isTemp t = true → t < f.operands.size → (f'.operand t).LiveFrom p
  := by
  obtain ⟨htemps, hvisit⟩ := visitAllTemps_spec f.clearIntervals f.live
  have hwiden : (f.live.foldl visitTemps f.clearIntervals).Widens f' := by
    have := Attempt.state_foldlM (fun g => (f.live.foldl visitTemps f.clearIntervals).Widens g)
      visitVars f.live (.refl _) fun g hg e _ => hg.trans (g.widens_visitVars e)
    unfold readIntervals at h
    rwa [h] at this
  have hclear := f.sameCode_clearIntervals
  constructor
  · refine visited_foldlM [] f.live rfl ?_ h
    exact ⟨hclear.trans htemps.same, nofun, nofun, nofun⟩
  · intro p i hi
    obtain ⟨hread, hdefine⟩ := hvisit p i (mem_live.mpr hi)
    constructor
    · intro t ht htemp hlt
      apply (hwiden.operand t).liveTo
      exact hread t ht (by rwa [isTemp_congr (hclear.kind_eq t)]) (by rwa [hclear.size_eq])
    · intro t ht htemp hlt
      apply (hwiden.operand t).liveFrom
      exact hdefine t ht (by rwa [isTemp_congr (hclear.kind_eq t)]) (by rwa [hclear.size_eq])

/-- The intervals that are found from reads cover what the instructions do. -/
theorem covers_readIntervals (wf : f.WellFormed) (h : f.readIntervals = .ok f') :
  f.Covers f'
  := by
  have hhints := f.sameHints_readIntervals
  rw [h] at hhints
  obtain ⟨hvisited, hspec⟩ := readIntervals_spec h
  refine ⟨hhints, ?_, ?_, hvisited⟩
  · rintro p t ⟨i, hi, ht⟩ htemp
    exact (hspec p i hi).1 t ht htemp ((wf.fits p i hi).use_lt t ht)
  · rintro p t ⟨i, hi, ht⟩ htemp
    exact (hspec p i hi).2 t ht htemp ((wf.fits p i hi).def_temp t ht).1

/-- Intervals that are widened still cover what the instructions do. -/
theorem Covers.widen {f'' : Function} (h : f.Covers f') (hw : f'.Widens f'') :
  f.Covers f''
  := ⟨h.sameHints.trans hw.sameHints, fun p t hp ht => (hw.operand t).liveTo p (h.read p t hp ht),
    fun p t hp ht => (hw.operand t).liveFrom p (h.define p t hp ht), h.visited.widen hw⟩

/-- Covering the write at `pos` only widens intervals, and a variable written there that has an
interval then lives on to `pos`. -/
theorem coverWrite_spec (f : Function) (pos : Nat) (inst : Inst) :
  f.Widens (f.coverWrite (pos, inst)) ∧
    ∀ x, inst = .forceLoad x ∨ (∃ s, inst = .store x s) → f.isVar x = true → (f.operand x).LiveTo 0 →
      ((f.coverWrite (pos, inst)).operand x).LiveTo pos
  := by
  have hwiden : ∀ o : Operand, o.Widens (o.extendedTo pos) := fun o =>
    (Operand.extendedTo_spec pos o).1
  have hmodify : ∀ x, f.isVar x = true → (f.operand x).LiveTo 0 →
      ((f.modify x (·.extendedTo pos)).operand x).LiveTo pos := by
    intro x hx hlive
    rw [operand_modify_self _ (isVar_lt hx)]
    exact (Operand.extendedTo_spec pos _).2 hlive
  cases inst with
  | store y s =>
    unfold coverWrite
    simp only
    split
    · refine ⟨f.widens_modify y hwiden, ?_⟩
      rintro x (h | ⟨s', h⟩) hx hlive <;> cases h
      exact hmodify y hx hlive
    · refine ⟨.refl f, ?_⟩
      rintro x (h | ⟨s', h⟩) hx hlive <;> cases h
      contradiction
  | forceLoad y =>
    refine ⟨f.widens_modify y hwiden, ?_⟩
    rintro x (h | ⟨s', h⟩) hx hlive <;> cases h
    exact hmodify y hx hlive
  | _ =>
    refine ⟨.refl f, ?_⟩
    rintro x (h | ⟨s', h⟩) <;> cases h

/-- Covering every write. -/
theorem coverWrites_spec (f : Function) (entries : List (Nat × Inst)) :
  f.Widens (entries.foldl coverWrite f) ∧
    ∀ pos inst x, (pos, inst) ∈ entries → inst = .forceLoad x ∨ (∃ s, inst = .store x s) →
      f.isVar x = true → (f.operand x).LiveTo 0 →
        ((entries.foldl coverWrite f).operand x).LiveTo pos
  := by
  induction entries generalizing f with
  | nil => exact ⟨.refl f, nofun⟩
  | cons e entries ih =>
    obtain ⟨p, i⟩ := e
    obtain ⟨h₁, hwrite⟩ := f.coverWrite_spec p i
    obtain ⟨h₂, hrest⟩ := ih (f.coverWrite (p, i))
    rw [List.foldl_cons]
    refine ⟨h₁.trans h₂, ?_⟩
    intro pos inst x hmem hinst hx hlive
    rcases List.mem_cons.mp hmem with heq | hmem
    · cases heq
      exact (h₂.operand x).liveTo p (hwrite x hinst hx hlive)
    · refine hrest pos inst x hmem hinst ?_ ((h₁.operand x).liveTo 0 hlive)
      rwa [isVar_congr (h₁.same.kind_eq x)]

/-- The full intervals also cover every write to a variable. -/
theorem covers_intervals (wf : f.WellFormed) (h : f.intervals = .ok f') :
  f.Covers f' ∧ ∀ p i x, f.fetch p = some i → i = .forceLoad x ∨ (∃ s, i = .store x s) →
    f.isVar x = true → (f'.operand x).LiveTo p
  := by
  unfold intervals at h
  cases hread : f.readIntervals with
  | error stopped =>
    rw [hread] at h
    cases h
  | ok g =>
    rw [hread] at h
    cases h
    have hcovers := covers_readIntervals wf hread
    have hsame := hcovers.sameHints.same
    obtain ⟨hwiden, hwrite⟩ := g.coverWrites_spec g.live
    refine ⟨hcovers.widen hwiden, ?_⟩
    intro p i x hi hinst hx
    refine hwrite p i x ?_ hinst ?_ (hcovers.visited.write p i x (mem_live.mpr hi) hinst hx).2
    · rw [live_congr hsame]
      exact mem_live.mpr hi
    · rwa [isVar_congr (hsame.kind_eq x)]

/-- Finding intervals changes nothing else, whether it succeeds or not. -/
theorem sameHints_intervals (f : Function) :
  f.SameHints (Attempt.state f.intervals)
  := by
  have hhints := f.sameHints_readIntervals
  unfold intervals
  cases hread : f.readIntervals with
  | error stopped =>
    rw [hread] at hhints
    exact hhints
  | ok g =>
    rw [hread] at hhints
    exact SameHints.trans hhints (g.coverWrites_spec g.live).1.sameHints

/-! ### What the passes conclude -/

/-- A temp whose interval never ends is not read. -/
theorem Covers.unread_of_isDead (h : f.Covers f') {t : OperandId} (ht : f.isTemp t = true)
    (hdead : (f'.operand t).isDead = true) :
  f.Unread t
  := by
  intro p hp
  obtain ⟨stop, hstop, -⟩ := h.read p t hp ht
  simp [Operand.isDead, hstop] at hdead

/-- A store at or after the end of the interval of its variable is not read. -/
theorem Covers.unreadAfter (h : f.Covers f') {stop : Nat} (hx : f.isVar x = true)
    (hstop : (f'.operand x).liveEnd = some stop) (hle : stop ≤ pos) :
  f.UnreadAfter x pos
  := by
  have hlive : ∀ p, (f'.operand x).LiveTo p → p ≤ pos := by
    rintro p ⟨stop', hstop', hle'⟩
    rw [hstop] at hstop'
    cases hstop'
    exact Nat.le_trans hle' hle
  constructor
  · rintro p ⟨d, hd⟩
    exact hlive p (h.visited.load p d x (mem_live.mpr hd) hx).2
  · rintro target jump p ⟨hlt, i, l, hi, hl, hlabel⟩ h₁ h₂ hp
    exact hlive jump (h.visited.loop target jump i l (mem_live.mpr hi) hl hlabel hlt p x hp hx h₁ h₂)

/-! ### Where intervals start -/

/-- A position at which an operand is defined or loaded. -/
def EntersAt (f : Function) (p : Nat) (t : OperandId) : Prop :=
  ∃ i, f.fetch p = some i ∧ (t ∈ i.defs ∨ i = .forceLoad t)

/-- A position at which a place is read, written or loaded. -/
def AccessesAt (f : Function) (p : Nat) (x : OperandId) : Prop :=
  ∃ i, f.fetch p = some i ∧ ((∃ d, i = .assign d x) ∨ i = .forceLoad x ∨ ∃ s, i = .store x s)

/-- Intervals start where operands are accessed. -/
structure StartsRight (f g : Function) : Prop where
  same : f.SameCode g
  temp : ∀ t p, f.isTemp t = true → (g.operand t).liveStart = some p → f.EntersAt p t
  var : ∀ x p, f.isVar x = true → (g.operand x).liveStart = some p → f.AccessesAt p x

/-- A definition at `pos` moves the start of an interval to `pos`, or not at all. -/
theorem liveStart_definedAt {o : Operand} (h : (o.definedAt pos).liveStart = some p) :
  p = pos ∨ o.liveStart = some p
  := by
  unfold Operand.definedAt at h
  cases hstart : o.liveStart with
  | none =>
    simp only [hstart, Option.some.injEq] at h
    exact .inl h.symm
  | some start =>
    simp only [hstart, Option.some.injEq] at h
    rcases Nat.le_total start pos with hle | hle
    · rw [Nat.min_eq_left hle] at h
      exact .inr (congrArg some h)
    · rw [Nat.min_eq_right hle] at h
      exact .inl h.symm

/-- A start or an end is new only where an operand is changed, and then at the position of the
change. -/
theorem bound_modifyAll (bound : Operand → Option Nat)
    (hchange : ∀ o p, bound (change o) = some p → p = pos ∨ bound o = some p) {ids : List OperandId}
    (h : bound ((ids.foldl (fun f id => f.modify id change) f).operand x) = some p) :
  bound (f.operand x) = some p ∨ x ∈ ids ∧ p = pos
  := by
  induction ids generalizing f with
  | nil => exact .inl h
  | cons id ids ih =>
    rcases ih h with h | ⟨hmem, hp⟩
    · rw [operand_modify] at h
      split at h
      · rename_i hid
        rcases hchange _ _ h with hp | h
        · exact .inr ⟨hid.1 ▸ List.mem_cons_self, hp⟩
        · exact .inl (hid.1 ▸ h)
      · exact .inl h
    · exact .inr ⟨List.mem_cons_of_mem _ hmem, hp⟩

/-- Changes that leave starts alone. -/
theorem StartsRight.of_liveStart (h : f.StartsRight g) (hsame : g.SameCode g')
    (hstart : ∀ x, (g'.operand x).liveStart = (g.operand x).liveStart) :
  f.StartsRight g'
  := by
  refine ⟨h.same.trans hsame, fun t p ht hp => ?_, fun x p hx hp => ?_⟩
  · exact h.temp t p ht (hstart t ▸ hp)
  · exact h.var x p hx (hstart x ▸ hp)

/-- A change of one operand that keeps a bound of every interval keeps that bound of all operands.
-/
theorem bound_modify {bound : Operand → Option Nat} (h : ∀ o, bound (change o) = bound o) (f : Function)
    (id x : OperandId) :
  bound ((f.modify id change).operand x) = bound (f.operand x)
  := by
  rw [operand_modify]
  split
  · rename_i hid
    rw [h, hid.1]
  · rfl

/-- A change of several operands that keeps a bound of every interval keeps that bound of all
operands. -/
theorem bound_modifyAll_eq {bound : Operand → Option Nat} (h : ∀ o, bound (change o) = bound o)
    (f : Function) (ids : List OperandId) (x : OperandId) :
  bound ((ids.foldl (fun f id => f.modify id change) f).operand x) = bound (f.operand x)
  := by
  induction ids generalizing f with
  | nil => rfl
  | cons id ids ih => exact (ih _).trans (bound_modify h f id x)

/-- A visit starts the intervals of the temps that an instruction fills. -/
theorem liveStart_visitTemps (hp : ((g.visitTemps (pos, inst)).operand x).liveStart = some p) :
  (g.operand x).liveStart = some p ∨ x ∈ inst.defs ∧ g.isTemp x = true ∧ p = pos
  := by
  have hread : ∀ o : Operand, (o.readAt pos).liveStart = o.liveStart := fun _ => rfl
  rcases bound_modifyAll Operand.liveStart (fun o p => liveStart_definedAt) hp with hp | ⟨hmem, rfl⟩
  · exact .inl (bound_modifyAll_eq hread g _ x ▸ hp)
  · obtain ⟨hdef, htemp⟩ := List.mem_filter.mp hmem
    have hwiden : ∀ o : Operand, o.Widens (o.readAt p) := fun o => (Operand.readAt_spec p o).1
    have hkind := (g.widens_modifyAll (inst.uses.filter g.isTemp) hwiden).same.kind_eq x
    rw [isTemp_congr hkind] at htemp
    exact .inr ⟨hdef, htemp, rfl⟩

/-- Visiting an instruction for temps lets intervals start where operands are accessed only. -/
theorem startsRight_visitTemps (h : f.StartsRight g) (hfetch : f.fetch pos = some inst) :
  f.StartsRight (g.visitTemps (pos, inst))
  := by
  refine ⟨h.same.trans (g.visitTemps_spec pos inst).1.same, fun t p ht hp => ?_, fun x p hx hp => ?_⟩
  · rcases liveStart_visitTemps hp with hp | ⟨hdef, -, rfl⟩
    · exact h.temp t p ht hp
    · exact ⟨inst, hfetch, .inl hdef⟩
  · rcases liveStart_visitTemps hp with hp | ⟨-, htemp, -⟩
    · exact h.var x p hx hp
    · rw [isTemp_congr (h.same.kind_eq x)] at htemp
      rw [isVar_eq_false htemp] at hx
      cases hx

/-- A visit starts the interval of the variable that an instruction reads, writes or loads. -/
theorem liveStart_visitVars (hvisit : g.visitVars (pos, inst) = .ok g')
    (hp : (g'.operand x).liveStart = some p) :
  (g.operand x).liveStart = some p ∨ p = pos ∧ (inst = .forceLoad x ∨
    g.isVar x = true ∧ ((∃ d, inst = .assign d x) ∨ ∃ s, inst = .store x s))
  := by
  have hextend : ∀ o : Operand, (o.extendedTo pos).liveStart = o.liveStart := fun _ => rfl
  have hmodify : ∀ {change : Operand → Operand} {y : OperandId},
      ((g.modify y change).operand x).liveStart = some p →
      (∀ o p, (change o).liveStart = some p → p = pos ∨ o.liveStart = some p) →
      (g.operand x).liveStart = some p ∨ x = y ∧ p = pos := by
    intro change y hp hchange
    have hone : (([y].foldl (fun f id => f.modify id change) g).operand x).liveStart = some p := hp
    rcases bound_modifyAll Operand.liveStart hchange hone with hp | ⟨hmem, hpos⟩
    · exact .inl hp
    · exact .inr ⟨List.mem_singleton.mp hmem, hpos⟩
  obtain rfl | ⟨d, y, rfl, hy, rfl⟩ | ⟨y, hinst, rfl⟩ | ⟨target, rfl⟩ := visitVars_cases hvisit
  · exact .inl hp
  · rcases hmodify hp (fun o p => liveStart_definedAt) with hp | ⟨rfl, hpos⟩
    · exact .inl hp
    · exact .inr ⟨hpos, .inr ⟨hy, .inl ⟨d, rfl⟩⟩⟩
  · rcases hmodify hp (fun o p => liveStart_definedAt) with hp | ⟨rfl, hpos⟩
    · exact .inl hp
    · exact .inr ⟨hpos, hinst.imp_right (And.imp_right .inr)⟩
  · exact .inl (bound_modifyAll_eq hextend g _ x ▸ hp)

/-- Visiting an instruction for variables lets intervals start where operands are accessed only.
-/
theorem startsRight_visitVars (h : f.StartsRight g) (hfetch : f.fetch pos = some inst)
    (hvisit : g.visitVars (pos, inst) = .ok g') :
  f.StartsRight g'
  := by
  have hwidens := g.widens_visitVars (pos, inst)
  rw [hvisit] at hwidens
  refine ⟨h.same.trans hwidens.same, fun t p ht hp => ?_, fun x p hx hp => ?_⟩
  · rcases liveStart_visitVars hvisit hp with hp | ⟨rfl, rfl | ⟨hvar, -⟩⟩
    · exact h.temp t p ht hp
    · exact ⟨_, hfetch, .inr rfl⟩
    · rw [isVar_congr (h.same.kind_eq t), isVar_eq_false ht] at hvar
      cases hvar
  · rcases liveStart_visitVars hvisit hp with hp | ⟨rfl, rfl | ⟨-, hread | hwrite⟩⟩
    · exact h.var x p hx hp
    · exact ⟨_, hfetch, .inr (.inl rfl)⟩
    · exact ⟨inst, hfetch, .inl hread⟩
    · exact ⟨inst, hfetch, .inr (.inr hwrite)⟩

/-- Covering a write does not move the start of any interval. -/
theorem liveStart_coverWrite (g : Function) (pos : Nat) (inst : Inst) (x : OperandId) :
  ((g.coverWrite (pos, inst)).operand x).liveStart = (g.operand x).liveStart
  := by
  have hextend : ∀ o : Operand, (o.extendedTo pos).liveStart = o.liveStart := fun _ => rfl
  cases inst with
  | store y s =>
    simp only [coverWrite]
    split
    · exact bound_modify hextend g y x
    · rfl
  | forceLoad y => exact bound_modify hextend g y x
  | _ => rfl

/-- Covering a write lets intervals start where they started. -/
theorem startsRight_coverWrite (h : f.StartsRight g) (pos : Nat) (inst : Inst) :
  f.StartsRight (g.coverWrite (pos, inst))
  := h.of_liveStart (g.coverWrite_spec pos inst).1.same (liveStart_coverWrite g pos inst)

/-- What every visit of an instruction keeps true is true after all of them. -/
theorem visits_induction {P : Function → Prop} (visit : Function → Nat × Inst → Function)
    (hvisit : ∀ g pos inst, P g → f.fetch pos = some inst → P (visit g (pos, inst)))
    (entries : List (Nat × Inst)) (hentries : ∀ e ∈ entries, f.fetch e.1 = some e.2) (hg : P g) :
  P (entries.foldl visit g)
  := by
  induction entries generalizing g with
  | nil => exact hg
  | cons e entries ih =>
    apply ih fun e' he' => hentries e' (List.mem_cons_of_mem _ he')
    exact hvisit g e.1 e.2 hg (hentries e List.mem_cons_self)

/-- What is true before the analysis of reads and kept by each visit is true after it. -/
theorem readIntervals_induction {P : Function → Prop} (hclear : P f.clearIntervals)
    (htemps : ∀ g pos inst, P g → f.fetch pos = some inst → P (g.visitTemps (pos, inst)))
    (hvars : ∀ g g' pos inst, P g → f.fetch pos = some inst → g.visitVars (pos, inst) = .ok g' → P g')
    (h : f.readIntervals = .ok f') :
  P f'
  := by
  have hfoldM : ∀ (entries : List (Nat × Inst)) g g', (∀ e ∈ entries, f.fetch e.1 = some e.2) →
      P g → entries.foldlM visitVars g = .ok g' → P g' := by
    intro entries
    induction entries with
    | nil =>
      intro g g' _ hg hfold
      cases hfold
      exact hg
    | cons e entries ih =>
      intro g g' he hg hfold
      obtain ⟨g₁, hvisit, hrest⟩ := Attempt.bind_eq_ok hfold
      refine ih g₁ g' (fun e' he' => he e' (List.mem_cons_of_mem _ he')) ?_ hrest
      exact hvars g g₁ e.1 e.2 hg (he e List.mem_cons_self) hvisit
  have hlive : ∀ e ∈ f.live, f.fetch e.1 = some e.2 := fun _ he => mem_live.mp he
  exact hfoldM f.live _ f' hlive (visits_induction visitTemps htemps f.live hlive hclear) h

/-- What is true before the analysis and kept by each visit is true after it. -/
theorem intervals_induction {P : Function → Prop} (hclear : P f.clearIntervals)
    (htemps : ∀ g pos inst, P g → f.fetch pos = some inst → P (g.visitTemps (pos, inst)))
    (hvars : ∀ g g' pos inst, P g → f.fetch pos = some inst → g.visitVars (pos, inst) = .ok g' → P g')
    (hwrites : ∀ g pos inst, P g → f.fetch pos = some inst → P (g.coverWrite (pos, inst)))
    (h : f.intervals = .ok f') :
  P f'
  := by
  obtain ⟨g, hread, hcover⟩ := Attempt.bind_eq_ok h
  cases hcover
  have hsame : f.SameCode g := by
    have hsame := f.sameHints_readIntervals.same
    rwa [hread] at hsame
  rw [live_congr hsame]
  exact visits_induction coverWrite hwrites f.live (fun _ he => mem_live.mp he)
    (readIntervals_induction hclear htemps hvars hread)

/-- The intervals of a function start where its operands are accessed. -/
theorem startsRight_intervals (h : f.intervals = .ok f') :
  f.StartsRight f'
  := by
  refine intervals_induction (P := f.StartsRight) ?_ ?_ ?_ ?_ h
  · refine ⟨f.sameCode_clearIntervals, fun t p _ hp => ?_, fun x p _ hp => ?_⟩ <;>
    · rw [operand_clearIntervals] at hp
      cases hp
  · exact fun _ _ _ hg hfetch => startsRight_visitTemps hg hfetch
  · exact fun _ _ _ _ hg hfetch hvisit => startsRight_visitVars hg hfetch hvisit
  · exact fun _ pos inst hg _ => startsRight_coverWrite hg pos inst

/-- Only temps and variables have intervals. -/
theorem isTemp_or_isVar_of_liveStart (wf : f.WellFormed) (h : f.intervals = .ok f') {id : OperandId}
    {start : Nat} (hstart : (f'.operand id).liveStart = some start) :
  f.isTemp id = true ∨ f.isVar id = true
  := by
  suffices hvalues : f.SameCode f' ∧
      ∀ id start, (f'.operand id).liveStart = some start → f.isTemp id = true ∨ f.isVar id = true from
    hvalues.2 id start hstart
  refine intervals_induction (P := fun g => f.SameCode g ∧
    ∀ id start, (g.operand id).liveStart = some start → f.isTemp id = true ∨ f.isVar id = true) ?_ ?_ ?_ ?_ h
  · refine ⟨f.sameCode_clearIntervals, fun id start hstart => ?_⟩
    rw [operand_clearIntervals] at hstart
    cases hstart
  · rintro g pos inst ⟨hsame, hg⟩ -
    refine ⟨hsame.trans (g.visitTemps_spec pos inst).1.same, fun id start hstart => ?_⟩
    rcases liveStart_visitTemps hstart with hstart | ⟨-, htemp, -⟩
    · exact hg id start hstart
    · exact .inl ((isTemp_congr (hsame.kind_eq id)).symm.trans htemp)
  · rintro g g' pos inst ⟨hsame, hg⟩ hfetch hvisit
    have hwidens := g.widens_visitVars (pos, inst)
    rw [hvisit] at hwidens
    refine ⟨hsame.trans hwidens.same, fun id start hstart => ?_⟩
    rcases liveStart_visitVars hvisit hstart with hstart | ⟨-, rfl | ⟨hvar, -⟩⟩
    · exact hg id start hstart
    · exact .inr ((wf.fits pos _ hfetch).load_var id rfl).2
    · exact .inr ((isVar_congr (hsame.kind_eq id)).symm.trans hvar)
  · rintro g pos inst ⟨hsame, hg⟩ -
    refine ⟨hsame.trans (g.coverWrite_spec pos inst).1.same, fun id start hstart => ?_⟩
    rw [liveStart_coverWrite] at hstart
    exact hg id start hstart

/-! ### The intervals of temps -/

/-- A change of several operands does not touch the others. -/
theorem operand_modifyAll_of_notMem {ids : List OperandId} (h : x ∉ ids) (f : Function) :
  (ids.foldl (fun f id => f.modify id change) f).operand x = f.operand x
  := by
  induction ids generalizing f with
  | nil => rfl
  | cons id ids ih =>
    rw [List.foldl_cons, ih (List.not_mem_of_not_mem_cons h)]
    exact operand_modify_of_ne _ (List.ne_of_not_mem_cons h)

section Temp

variable {t : OperandId}

/-- A visit for variables leaves a temp alone unless it loads the temp. -/
theorem operand_visitVars_of_isTemp (hvisit : g.visitVars (pos, inst) = .ok g') (ht : g.isTemp t = true)
    (hload : inst ≠ .forceLoad t) :
  g'.operand t = g.operand t
  := by
  have hne : ∀ {x}, g.isVar x = true → t ≠ x := by
    rintro x hx rfl
    rw [isVar_eq_false ht] at hx
    cases hx
  obtain rfl | ⟨d, x, -, hx, rfl⟩ | ⟨x, rfl | ⟨hx, -⟩, rfl⟩ | ⟨target, rfl⟩ := visitVars_cases hvisit
  · rfl
  · exact operand_modify_of_ne _ (hne hx)
  · apply operand_modify_of_ne
    rintro rfl
    exact hload rfl
  · exact operand_modify_of_ne _ (hne hx)
  · apply operand_modifyAll_of_notMem
    intro hmem
    obtain ⟨-, -, -, -, hx⟩ := mem_varsReadBetween.mp hmem
    exact hne hx rfl

/-- Covering a write does not touch temps, unless the instruction loads one. -/
theorem operand_coverWrite_of_isTemp (ht : g.isTemp t = true) (hload : inst ≠ .forceLoad t) :
  (g.coverWrite (pos, inst)).operand t = g.operand t
  := by
  cases inst with
  | store x s =>
    simp only [coverWrite]
    split
    · rename_i hx
      apply operand_modify_of_ne
      rintro rfl
      rw [isVar_eq_false ht] at hx
      cases hx
    · rfl
  | forceLoad x =>
    apply operand_modify_of_ne
    rintro rfl
    exact hload rfl
  | _ => rfl

/-- A read at `pos` moves the end of an interval to `pos`, or not at all. -/
theorem liveEnd_readAt {o : Operand} (h : (o.readAt pos).liveEnd = some p) :
  p = pos ∨ o.liveEnd = some p
  := by
  unfold Operand.readAt at h
  cases hstop : o.liveEnd with
  | none =>
    simp only [hstop, Option.some.injEq] at h
    exact .inl h.symm
  | some stop =>
    simp only [hstop, Option.some.injEq] at h
    rcases Nat.le_total stop pos with hle | hle
    · rw [Nat.max_eq_right hle] at h
      exact .inl h.symm
    · rw [Nat.max_eq_left hle] at h
      exact .inr (congrArg some h)

/-- The interval of a temp that is not loaded as a variable ends where the temp is read. -/
theorem readsAt_liveEnd (h : f.intervals = .ok f') (ht : f.isTemp t = true)
    (hload : ∀ q, f.fetch q ≠ some (.forceLoad t)) (hp : (f'.operand t).liveEnd = some p) :
  f.ReadsAt p t
  := by
  have hne : ∀ {pos inst}, f.fetch pos = some inst → inst ≠ .forceLoad t := by
    rintro pos inst hfetch rfl
    exact hload pos hfetch
  have hends : f.SameCode f' ∧ ∀ p, (f'.operand t).liveEnd = some p → f.ReadsAt p t := by
    refine intervals_induction (P := fun g => f.SameCode g ∧
      ∀ p, (g.operand t).liveEnd = some p → f.ReadsAt p t) ?_ ?_ ?_ ?_ h
    · refine ⟨f.sameCode_clearIntervals, fun p hp => ?_⟩
      rw [operand_clearIntervals] at hp
      cases hp
    · rintro g pos inst ⟨hsame, hg⟩ hfetch
      have hdefine : ∀ o : Operand, (o.definedAt pos).liveEnd = o.liveEnd := fun _ => rfl
      refine ⟨hsame.trans (g.visitTemps_spec pos inst).1.same, fun p hp => ?_⟩
      unfold visitTemps at hp
      rw [bound_modifyAll_eq hdefine] at hp
      rcases bound_modifyAll Operand.liveEnd (fun o p => liveEnd_readAt) hp with hp | ⟨hmem, rfl⟩
      · exact hg p hp
      · exact ⟨inst, hfetch, (List.mem_filter.mp hmem).1⟩
    · rintro g g' pos inst ⟨hsame, hg⟩ hfetch hvisit
      have hwidens := g.widens_visitVars (pos, inst)
      rw [hvisit] at hwidens
      refine ⟨hsame.trans hwidens.same, ?_⟩
      rwa [operand_visitVars_of_isTemp hvisit ((isTemp_congr (hsame.kind_eq t)).trans ht) (hne hfetch)]
    · rintro g pos inst ⟨hsame, hg⟩ hfetch
      refine ⟨hsame.trans (g.coverWrite_spec pos inst).1.same, ?_⟩
      rwa [operand_coverWrite_of_isTemp ((isTemp_congr (hsame.kind_eq t)).trans ht) (hne hfetch)]
  exact hends.2 p hp

/-- A dead temp is defined somewhere. -/
theorem exists_definesAt_of_isDead (h : f.intervals = .ok f') (ht : f.isTemp t = true)
    (hdead : (f'.operand t).isDead = true) :
  ∃ p, f.DefinesAt p t
  := by
  have hends : ∀ {o o' : Operand}, o.Widens o' → o'.liveEnd = none → o.liveEnd = none := by
    intro o o' hwidens hnone
    cases hstop : o.liveEnd with
    | none => rfl
    | some stop =>
      obtain ⟨stop', hstop', -⟩ := hwidens.liveTo stop ⟨stop, hstop, Nat.le_refl _⟩
      rw [hnone] at hstop'
      cases hstop'
  have hstarts : f.SameCode f' ∧
      ∀ p, (f'.operand t).liveStart = some p → (f'.operand t).liveEnd = none → f.DefinesAt p t := by
    refine intervals_induction (P := fun g => f.SameCode g ∧
      ∀ p, (g.operand t).liveStart = some p → (g.operand t).liveEnd = none → f.DefinesAt p t) ?_ ?_ ?_ ?_ h
    · refine ⟨f.sameCode_clearIntervals, fun p hp _ => ?_⟩
      rw [operand_clearIntervals] at hp
      cases hp
    · rintro g pos inst ⟨hsame, hg⟩ hfetch
      have hwidens := (g.visitTemps_spec pos inst).1
      refine ⟨hsame.trans hwidens.same, fun p hp hnone => ?_⟩
      rcases liveStart_visitTemps hp with hp | ⟨hdef, -, rfl⟩
      · exact hg p hp (hends (hwidens.operand t) hnone)
      · exact ⟨inst, hfetch, hdef⟩
    · rintro g g' pos inst ⟨hsame, hg⟩ hfetch hvisit
      have hwidens := g.widens_visitVars (pos, inst)
      rw [hvisit] at hwidens
      refine ⟨hsame.trans hwidens.same, ?_⟩
      by_cases hload : inst = .forceLoad t
      · -- A load gives the interval an end.
        subst hload
        cases hvisit
        rw [operand_modify]
        split
        · intro p _ hnone
          cases hnone
        · exact hg
      · rwa [operand_visitVars_of_isTemp hvisit ((isTemp_congr (hsame.kind_eq t)).trans ht) hload]
    · rintro g pos inst ⟨hsame, hg⟩ -
      have hwidens := (g.coverWrite_spec pos inst).1
      refine ⟨hsame.trans hwidens.same, fun p hp hnone => ?_⟩
      rw [liveStart_coverWrite] at hp
      exact hg p hp (hends (hwidens.operand t) hnone)
  obtain ⟨hstart, hnone⟩ := Bool.and_eq_true_iff.mp hdead
  obtain ⟨p, hp⟩ := Option.isSome_iff_exists.mp hstart
  exact ⟨p, hstarts.2 p hp (Option.isNone_iff_eq_none.mp hnone)⟩

end Temp

/-- The intervals of temps end where they are read. -/
structure EndsRight (f g : Function) : Prop where
  same : f.SameCode g
  temp : ∀ t p, f.isTemp t = true → (g.operand t).liveEnd = some p → f.ReadsAt p t

/-- In well-formed code no instruction loads a temp as if it were a variable. -/
theorem WellFormed.fetch_ne_forceLoad (wf : f.WellFormed) {t : OperandId} (ht : f.isTemp t = true) (q : Nat) :
  f.fetch q ≠ some (.forceLoad t)
  := by
  intro hq
  have hvar := ((wf.fits q _ hq).load_var t rfl).2
  rw [isVar_eq_false ht] at hvar
  cases hvar

/-- In the intervals of well-formed code, those of temps end where they are read. -/
theorem endsRight_intervals (wf : f.WellFormed) (h : f.intervals = .ok f') :
  f.EndsRight f'
  := ⟨(startsRight_intervals h).same, fun _ _ ht hp => readsAt_liveEnd h ht (wf.fetch_ne_forceLoad ht) hp⟩

end Function

end IR

end StackCompiler
