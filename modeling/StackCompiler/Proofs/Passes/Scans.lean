import StackCompiler.IR.Optimizer
import StackCompiler.Proofs.Passes.Intervals
import StackCompiler.Proofs.Passes.Sweeping
import StackCompiler.Proofs.Typing.Inference

/-!
# Passes over the code

The passes that work on instructions as they stand are sequences of changes and leave right
marks behind, also when they stop with an error.  A pass that visits the instructions one by
one changes the one that it visits only, so it finds the others as they were.
-/

namespace StackCompiler.IR

open Bytecode (Constant)

/-- What is not read stays so when instructions go. -/
theorem Function.UnreadAfter.of_fetch {f f' : Function} {x : OperandId} {pos : Nat}
    (h : f.UnreadAfter x pos) (hlabels : f'.labels = f.labels)
    (hview : ∀ p i, f'.fetch p = some i → f.fetch p = some i) :
  f'.UnreadAfter x pos
  := by
  have hload : ∀ {p}, f'.LoadsAt p x → f.LoadsAt p x := fun ⟨d, hd⟩ => ⟨d, hview _ _ hd⟩
  refine ⟨fun p hp => h.load_le p (hload hp), ?_⟩
  rintro target jump p ⟨hlt, i, l, hi, hl, hlabel⟩ h₁ h₂ hp
  rw [hlabels] at hlabel
  exact h.loop_le target jump p ⟨hlt, i, l, hview _ _ hi, hl, hlabel⟩ h₁ h₂ (hload hp)

namespace State

variable {s s' s'' : State} {pos : Nat} {inst : Inst}

/-- A state reached by changes, with right marks. -/
structure Reaches (s s' : State) : Prop where
  edits : Edits s.func s'.func
  settled : s'.Settled

theorem Reaches.refl (h : s.Settled) :
  s.Reaches s
  := ⟨.refl, h⟩

theorem Reaches.trans (h : s.Reaches s') (h' : s'.Reaches s'') :
  s.Reaches s''
  := ⟨h.edits.trans h'.edits, h'.settled⟩

/-- What holds before and after each visit holds after a pass that visits the instructions, if
a visit changes no other instruction. -/
theorem holds_foldlM {P : State → Prop} (visit : State → Nat × Inst → Attempt State State)
    (hvisit : ∀ s pos inst, P s → s.func.fetch pos = some inst →
      P (visit s (pos, inst)).state ∧
        ∀ p, p ≠ pos → (visit s (pos, inst)).state.func.fetch p = s.func.fetch p)
    (entries : List (Nat × Inst)) (hsorted : entries.Pairwise fun a b => a.1 < b.1)
    (hfetch : ∀ e ∈ entries, s.func.fetch e.1 = some e.2) (hs : P s) :
  P (Attempt.state (entries.foldlM visit s))
  := by
  induction entries generalizing s with
  | nil => exact hs
  | cons e entries ih =>
    obtain ⟨hafter, hrest⟩ := List.pairwise_cons.mp hsorted
    obtain ⟨hnext, hkeep⟩ := hvisit s e.1 e.2 hs (hfetch e List.mem_cons_self)
    rw [List.foldlM_cons]
    cases hstep : visit s e with
    | error stopped =>
      rw [hstep] at hnext
      exact hnext
    | ok s' =>
      rw [hstep] at hnext hkeep
      refine ih hrest ?_ hnext
      intro e' he'
      exact (hkeep e'.1 (Nat.ne_of_gt (hafter e' he'))).trans (hfetch e' (List.mem_cons_of_mem _ he'))

/-- A pass that visits the live instructions keeps a property of states if each visit keeps it and
leaves the instructions at other positions as they were.  The instruction that a visit finds is
then the one that was live at the start. -/
theorem holds_foldlM_live {P : State → Prop} (visit : State → Nat × Inst → Attempt State State)
    (hvisit : ∀ s pos inst, P s → s.func.fetch pos = some inst →
      P (visit s (pos, inst)).state ∧
        ∀ p, p ≠ pos → (visit s (pos, inst)).state.func.fetch p = s.func.fetch p) (hs : P s) :
  P (Attempt.state (s.func.live.foldlM visit s))
  := holds_foldlM visit hvisit _ (Function.pairwise_live _) (fun _ he => Function.mem_live.mp he) hs

/-- A pass that visits the instructions, if each visit makes changes to the instruction visited. -/
theorem reaches_foldlM_live (visit : State → Nat × Inst → Attempt State State)
    (hvisit : ∀ s pos inst, s.Settled → s.func.fetch pos = some inst →
      s.Reaches (visit s (pos, inst)).state ∧
        ∀ p, p ≠ pos → (visit s (pos, inst)).state.func.fetch p = s.func.fetch p) (hs : s.Settled) :
  s.Reaches (Attempt.state (s.func.live.foldlM visit s))
  := by
  refine holds_foldlM_live visit (fun s' pos inst h hfetch => ?_) (.refl hs)
  obtain ⟨hreach, hkeep⟩ := hvisit s' pos inst h.settled hfetch
  exact ⟨h.trans hreach, hkeep⟩

/-! ### What is found out -/

/-- What is found out about operands concerns no marks. -/
theorem Settled.annotate {f : Function} (h : s.Settled) (hsame : s.func.SameCode f) :
  ({ s with func := f } : State).Settled
  := by
  have hobsolete := h.obsolete.of_fetch hsame.inPlace (hsame.keepsOrder h.obsolete.wellFormed).wellFormed
    fun p i hi => (hsame.fetch_eq p) ▸ hi
  refine ⟨hobsolete.mono fun p i hi _ => Function.lt_size_of_fetch hi, ?_⟩
  exact hsame.pending_eq.trans h.pending

/-- A function with the same code, whose hints are right if they were, is reached by changes. -/
theorem reaches_annotate {f : Function} (h : s.Settled) (hsame : s.func.SameCode f)
    (hhints : s.func.Hinted → f.Hinted) :
  s.Reaches { s with func := f }
  := ⟨.single (.annotate hsame hhints), h.annotate hsame⟩

/-- The propagation of types is a sequence of changes and leaves right marks. -/
theorem reaches_propagateTypes (h : s.Settled) :
  s.Reaches (Attempt.state (propagateTypes s))
  := by
  obtain ⟨f, hf, hsame, hhints⟩ := propagateTypes_spec h.obsolete.wellFormed
  rw [hf]
  exact reaches_annotate h hsame hhints

/-! ### Folding -/

/-- The marks stay right when an operation on literals becomes an assignment. -/
theorem obsolete_foldedTo {f : Function} {marks : IdSet} {n : Nat} (h : f.Obsolete marks n)
    (hfetch : f.fetch pos = some inst) {dest : OperandId} {sources : List OperandId}
    {value : Constant} (hfold : f.foldInst? inst = some (dest, sources, .ok (some value))) :
  (f.foldedTo pos dest value).Obsolete marks n
  := by
  obtain ⟨hdefs, -, hlabel⟩ := Function.defs_of_foldInst? hfold
  refine h.change (Function.inPlace_foldedTo hfetch hlabel)
    (Function.keepsOrder_foldedTo h.wellFormed hfetch hfold).wellFormed ?_ ?_ ?_
  · intro p i hi
    rw [Function.fetch_foldedTo hfetch] at hi
    split at hi
    · cases hi
      simp [Inst.uses]
    · exact h.linear.once p i hi
  · intro p i t hi hu htemp
    rw [Function.fetch_foldedTo hfetch] at hi
    split at hi
    · cases hi
      -- A literal is not a temp.
      rw [List.mem_singleton.mp hu, Function.isTemp_iff, Function.kind_foldedTo_size] at htemp
      obtain ⟨n, hn⟩ := htemp
      cases hn
    · exact .inl ⟨i, hi, hu, .rfl⟩
  · rintro p t - ⟨i, hi, hd⟩
    rw [Function.fetch_foldedTo hfetch] at hi
    split at hi
    · rename_i hp
      cases hi
      exact ⟨inst, (congrArg _ hp).trans hfetch, hdefs ▸ hd⟩
    · exact ⟨i, hi, hd⟩

theorem func_foldTo (s : State) (pos : Nat) (dest : OperandId) (sources : List OperandId)
    (value : Constant) :
  (s.foldTo pos dest sources value).func = s.func.foldedTo pos dest value
  := func_markAll _ sources

/-- Folding an operation whose result is known is a sequence of changes and leaves right marks. -/
theorem reaches_foldTo (h : s.Settled) (hfetch : s.func.fetch pos = some inst) {dest : OperandId}
    {sources : List OperandId} {value : Constant}
    (hfold : s.func.foldInst? inst = some (dest, sources, .ok (some value))) :
  s.Reaches (s.foldTo pos dest sources value)
  := by
  obtain ⟨hdefs, huses, hlabel⟩ := Function.defs_of_foldInst? hfold
  have hplace : s.func.InPlace (s.func.foldedTo pos dest value) :=
    Function.inPlace_foldedTo hfetch hlabel
  have hop : ∀ t ∈ inst.uses, s.func.isTemp t = true ∧ ∀ d, inst ≠ .assign d t := by
    intro t ht
    have hassign : ∀ d, inst ≠ .assign d t := by
      rintro d rfl
      cases hfold
    exact ⟨h.obsolete.wellFormed.isTemp_of_uses hfetch ht hassign, hassign⟩
  refine ⟨?_, ?_, ?_⟩
  · rw [func_foldTo]
    exact .single (.fold hfetch hfold)
  · rw [func_foldTo]
    refine obsolete_markAll (s := { s with func := s.func.foldedTo pos dest value }) h.obsolete hfetch
      ?_ ?_ sources ?_ ?_ (fun _ ht => ht) hplace ?_
    · rintro kind t rfl
      cases hfold
    · exact Nat.le_trans (Nat.le_of_lt (Function.lt_size_of_fetch hfetch)) (Nat.le_of_eq hplace.size_eq.symm)
    · exact fun t ht => ⟨huses ▸ ht, (hop t (huses ▸ ht)).2⟩
    · exact (obsolete_foldedTo h.obsolete hfetch hfold).mono fun p i hi _ => Function.lt_size_of_fetch hi
    · intro p i hi
      rw [Function.fetch_foldedTo hfetch] at hi
      split at hi
      · rename_i hp
        cases hi
        refine .inr ⟨hp, fun t ht => ?_⟩
        rw [← huses] at ht
        constructor
        · intro heq
          have hlt := (h.obsolete.wellFormed.fits pos inst hfetch).use_lt t ht
          rw [List.mem_singleton.mp heq] at hlt
          exact absurd hlt (Nat.lt_irrefl _)
        · intro heq
          -- An operation does not read what it defines.
          have := h.obsolete.wellFormed.lt_of_reads ⟨inst, hfetch, hdefs ▸ heq⟩ ⟨inst, hfetch, ht⟩
            (hop t ht).1
          exact absurd this (Nat.lt_irrefl _)
      · exact .inl ⟨hi, ‹_›⟩
  · rw [func_foldTo]
    exact h.pending

/-- The folding of constants is a sequence of changes and leaves right marks, also when it stops
at an operation that fails. -/
theorem reaches_foldConstants (h : s.Settled) :
  s.Reaches (Attempt.state (foldConstants s))
  := by
  refine reaches_foldlM_live foldAt ?_ h
  intro s pos inst hs hfetch
  unfold foldAt
  simp only []
  split
  · rename_i dest sources value hfold
    refine ⟨reaches_foldTo hs hfetch hfold, fun p hp => ?_⟩
    change (s.foldTo pos dest sources value).func.fetch p = _
    rw [func_foldTo, Function.fetch_foldedTo hfetch, if_neg hp]
  · unfold report
    split <;> exact ⟨.refl hs, fun _ _ => rfl⟩
  · exact ⟨.refl hs, fun _ _ => rfl⟩

/-! ### Specialization -/

/-- Specializing one instruction is a sequence of changes, leaves right marks and touches no other
position. -/
theorem reaches_specializeAt (h : s.Settled) (hfetch : s.func.fetch pos = some inst) :
  s.Reaches (s.specializeAt (pos, inst)) ∧
    ∀ p, p ≠ pos → (s.specializeAt (pos, inst)).func.fetch p = s.func.fetch p
  := by
  cases inst with
  | binary op dest lhs rhs =>
    simp only [specializeAt]
    split
    · rename_i fast hknown
      have hview : ∀ p, (s.func.specialized pos fast dest lhs rhs).fetch p = _ :=
        Function.fetch_specialized hfetch
      have hedit : Edit s.func (s.func.specialized pos fast dest lhs rhs) := .specialize hfetch hknown
      refine ⟨⟨.single hedit, ?_, h.pending⟩, fun p hp => (hview p).trans (if_neg hp)⟩
      have hobsolete : (s.func.specialized pos fast dest lhs rhs).Obsolete s.ctx.obsolete s.func.size := by
        refine h.obsolete.change (Function.inPlace_specialized hfetch)
          (hedit.wellFormed h.obsolete.wellFormed) ?_ ?_ ?_
        · intro p i hi
          rw [hview] at hi
          split at hi
          · cases hi
            have := h.obsolete.linear.once pos _ hfetch
            exact this
          · exact h.obsolete.linear.once p i hi
        · intro p i t hi hu _
          rw [hview] at hi
          split at hi
          · rename_i hp
            cases hi
            refine .inl ⟨_, (congrArg _ hp).trans hfetch, hu, iff_of_false ?_ ?_⟩ <;>
            · rintro (⟨_, hl⟩ | ⟨_, -, hl⟩) <;> cases hl
          · exact .inl ⟨i, hi, hu, .rfl⟩
        · rintro p t - ⟨i, hi, hd⟩
          rw [hview] at hi
          split at hi
          · rename_i hp
            cases hi
            exact ⟨_, (congrArg _ hp).trans hfetch, hd⟩
          · exact ⟨i, hi, hd⟩
      exact hobsolete.mono fun p i hi _ => Function.lt_size_of_fetch hi
    · exact ⟨.refl h, fun _ _ => rfl⟩
  | _ => exact ⟨.refl h, fun _ _ => rfl⟩

/-- Specialization is a sequence of changes and leaves right marks. -/
theorem reaches_specializeTypes (h : s.Settled) :
  s.Reaches (Attempt.state (specializeTypes s))
  := by
  have := reaches_foldlM_live (fun s e => .ok (s.specializeAt e))
    (fun s pos inst hs hfetch => reaches_specializeAt hs hfetch) h
  exact (List.foldlM_pure (m := Attempt State) ▸ this :)

/-! ### Shortening -/

/-- Marks stay right when a jump becomes a short one. -/
theorem settled_shortened (h : s.Settled) {l : Label} (hfetch : s.func.fetch pos = some (.jump l)) :
  (s.replace pos (.shortJump l)).Settled
  := by
  have hview : ∀ p, (s.func.replace pos (.shortJump l)).fetch p = _ :=
    Function.fetch_replace hfetch (.shortJump l)
  -- A jump reads and defines nothing, in either form.
  have hback : ∀ p i t, (s.func.replace pos (.shortJump l)).fetch p = some i →
      t ∈ i.uses ∨ t ∈ i.defs → s.func.fetch p = some i := by
    intro p i t hi ht
    rw [hview] at hi
    split at hi
    · cases hi
      rcases ht with ht | ht <;> cases ht
    · exact hi
  have hobsolete : (s.func.replace pos (.shortJump l)).Obsolete s.ctx.obsolete s.func.size := by
    refine h.obsolete.change (Function.inPlace_replace hfetch nofun nofun)
      (Function.keepsOrder_shortened h.obsolete.wellFormed hfetch).wellFormed ?_ ?_ ?_
    · intro p i hi
      rw [hview] at hi
      split at hi
      · cases hi
        exact List.nodup_nil
      · exact h.obsolete.linear.once p i hi
    · exact fun p i t hi hu _ => .inl ⟨i, hback p i t hi (.inl hu), hu, .rfl⟩
    · exact fun p t _ ⟨i, hi, hd⟩ => ⟨i, hback p i t hi (.inr hd), hd⟩
  exact ⟨hobsolete.mono fun p i hi _ => Function.lt_size_of_fetch hi, h.pending⟩

/-- A visit of the pass for short jumps does nothing, or shortens a jump to a near label. -/
theorem shortenAt_cases (s : State) (pos : Nat) (inst : Inst) :
  (Attempt.state (s.shortenAt (pos, inst))) = s ∨
    ∃ l target stats, inst = .jump l ∧ s.func.labels.at? l = some target ∧
      (pos - target) + (target - pos) ≤ s.ctx.options.shortJumpMax.toNat ∧
      s.shortenAt (pos, inst) = .ok ⟨s.func.replace pos (.shortJump l), { s.ctx with stats }⟩
  := by
  cases inst with
  | jump l =>
    simp only [shortenAt, Function.labelPosition]
    cases htarget : s.func.labels.at? l with
    | none => exact .inl rfl
    | some target =>
      simp only [Attempt.orStop, bind, Except.bind]
      split
      · rename_i hnear
        exact .inr ⟨l, target, _, rfl, htarget, hnear, rfl⟩
      · exact .inl rfl
  | _ => exact .inl rfl

/-! ### Forwarding -/

/-- Marks stay right when a stored value is forwarded to the load that follows. -/
theorem obsolete_forwarded (h : s.Settled) {location src dest : OperandId}
    (hpair : s.func.storeThenLoad? pos = some (location, src, dest)) :
  (s.func.forwarded pos location src dest).Obsolete s.ctx.obsolete
    (s.func.forwarded pos location src dest).size
  := by
  have wf := h.obsolete.wellFormed
  have hp := h.pending
  obtain ⟨φ, hφ⟩ := Function.compacts_roomToForward wf hp hpair
  have hroom := hφ.obsolete (Function.wellFormed_roomToForward wf hp hpair) h.obsolete
  have hplace := Function.inPlace_forwarded wf hp hpair
  obtain ⟨hr₀, hr₁, hr₂⟩ := Function.fetch_roomToForward hp hpair
  have hview : ∀ p, (s.func.forwarded pos location src dest).fetch p = _ :=
    Function.fetch_forwarded wf hp hpair
  -- The copies are new, so what reads them is all that does.
  have honly : ∀ p q t, s.func.operands.size ≤ t →
      (s.func.forwarded pos location src dest).ReadsAt p t →
      (s.func.forwarded pos location src dest).ReadsAt q t → q = p := by
    intro p q t ht hpt hqt
    have hnew : ∀ r, ¬ (s.func.roomToForward pos location).ReadsAt r t := by
      rintro r ⟨i, hi, hu⟩
      have hlt : t < s.func.operands.size := (hroom.wellFormed.fits r i hi).use_lt t hu
      exact absurd hlt (Nat.not_lt.mpr ht)
    rcases Function.reads_forwarded wf hp hpair hpt with hold | hpt
    · exact absurd hold (hnew p)
    · rcases Function.reads_forwarded wf hp hpair hqt with hold | hqt
      · exact absurd hold (hnew q)
      · rcases hpt with ⟨rfl, hpt'⟩ | ⟨rfl, hpt'⟩ <;> rcases hqt with ⟨rfl, hqt'⟩ | ⟨rfl, hqt'⟩
        · rfl
        · exact absurd (hpt'.symm.trans hqt') (Nat.ne_of_lt (Nat.lt_succ_self _))
        · exact absurd (hqt'.symm.trans hpt') (Nat.ne_of_lt (Nat.lt_succ_self _))
        · rfl
  refine (hroom.change hplace (Function.keepsOrder_forwarded wf hp hpair).wellFormed ?_ ?_ ?_).mono
    fun p i hi _ => Function.lt_size_of_fetch hi
  · intro p i hi
    rw [hview] at hi
    split at hi
    · cases hi
      simp [Inst.uses]
    · split at hi
      · cases hi
        simp [Inst.uses]
      · split at hi
        · cases hi
          simp [Inst.uses]
        · exact hroom.linear.once p i hi
  · intro p i t hi hu _
    by_cases ht : s.func.operands.size ≤ t
    · exact .inr ⟨ht, fun q hq => honly p q t ht ⟨i, hi, hu⟩ hq⟩
    · left
      rw [hview] at hi
      split at hi
      · rename_i hp₀
        cases hi
        refine ⟨_, (congrArg _ hp₀).trans hr₀, hu, iff_of_false ?_ ?_⟩ <;>
        · rintro (⟨_, hl⟩ | ⟨_, -, hl⟩) <;> cases hl
      · split at hi
        · cases hi
          exact absurd (Nat.le_of_eq (List.mem_singleton.mp hu).symm) ht
        · split at hi
          · cases hi
            rw [List.mem_singleton.mp hu] at ht
            exact absurd (Nat.le_succ _) ht
          · exact ⟨i, hi, hu, .rfl⟩
  · intro p t ht hd
    rcases (Function.defines_forwarded_iff wf hp hpair).mp hd with hd | ⟨-, hnew⟩
    · exact hd
    · have := (h.obsolete.temp t ht).1
      rcases hnew with rfl | rfl
      · exact absurd this (Nat.lt_irrefl _)
      · exact absurd (Nat.lt_of_succ_lt this) (Nat.lt_irrefl _)

/-- Forwarding at a position succeeds, does what the change of functions does, and counts it. -/
theorem forwardAt_eq (hp : s.func.pending = []) (pos : Nat) (location src dest : OperandId) :
  ∃ stats, s.forwardAt pos location src dest =
    .ok ⟨s.func.forwarded pos location src dest, { s.ctx with stats }⟩
  := by
  have hfirst : s.func.newCopy src = (s.func.operands.size, (s.func.newCopy src).2) :=
    Prod.ext (by rw [Function.newCopy_eq]) rfl
  have hforked : ({ s with func := s.func.withCopies src } : State).replace pos
      (.fork src s.func.operands.size (s.func.operands.size + 1))
      = { s with func := s.func.forked pos src } := rfl
  unfold forwardAt
  rw [hfirst]
  simp only [Function.newCopy_newCopy, hforked]
  rw [Function.insert_of_pending_nil ((Function.pending_forked ..).trans hp)]
  exact ⟨_, rfl⟩

/-- Forwarding from a position on is a sequence of changes and leaves right marks. -/
theorem reaches_forwardFrom (n pos : Nat) (s : State) (h : s.Settled) :
  s.Reaches (Attempt.state (forwardFrom n pos s))
  := by
  induction n generalizing pos s with
  | zero => exact .refl h
  | succ n ih =>
    unfold forwardFrom
    split
    · rename_i location src dest hpair
      obtain ⟨stats, hstep⟩ := forwardAt_eq h.pending pos location src dest
      rw [hstep]
      have hreach : s.Reaches ⟨s.func.forwarded pos location src dest, { s.ctx with stats }⟩ :=
        ⟨.single (.forward h.pending hpair), obsolete_forwarded h hpair,
          (Function.pending_forwarded ..).trans h.pending⟩
      exact hreach.trans (ih (pos + 3) _ hreach.settled)
    · exact ih (pos + 1) s h

/-! ### Dead stores -/

/-- An analysis leaves the function that it gives, or stops with, in the state. -/
theorem state_analyze (s : State) (analysis : Function → Attempt Function Function) :
  (s.analyze analysis).state = { s with func := (analysis s.func).state }
  := by
  unfold analyze
  cases analysis s.func <;> rfl

/-- An analysis that changes no hint is a sequence of changes and leaves right marks. -/
theorem reaches_analyze (h : s.Settled) {analysis : Function → Attempt Function Function}
    (hhints : s.func.SameHints (analysis s.func).state) :
  s.Reaches (s.analyze analysis).state
  := by
  rw [state_analyze]
  refine reaches_annotate h hhints.same fun hinted => ?_
  exact hinted.of_sameCode h.obsolete.wellFormed hhints.same hhints.constant_eq
    fun id _ => .inl (hhints.types_eq id)

/-- If an analysis succeeds, the state has the function that it gives and the context that was
there. -/
theorem analyze_eq_ok {analysis : Function → Attempt Function Function}
    (h : s.analyze analysis = .ok s') :
  analysis s.func = .ok s'.func ∧ s'.ctx = s.ctx
  := by
  unfold analyze at h
  cases ha : analysis s.func with
  | error stopped =>
    rw [ha] at h
    cases h
  | ok f =>
    rw [ha] at h
    cases h
    exact ⟨rfl, rfl⟩

/-- Removing the store to a variable that is not read after it is a change, and the marks stay
right. -/
theorem edit_removeStore (h : s.func.Obsolete s.ctx.obsolete s.func.size) {x src : OperandId}
    (hfetch : s.func.fetch pos = some (.store x src)) (hx : s.func.isVar x = true)
    (hunread : s.func.UnreadAfter x pos) :
  Edit s.func (s.removeStore (pos, .store x src)).func ∧
    (s.removeStore (pos, .store x src)).func.Obsolete (s.removeStore (pos, .store x src)).ctx.obsolete
      (s.removeStore (pos, .store x src)).func.size
  := by
  have hedit : Edit s.func (s.func.remove pos) := .eraseStore hfetch hx hunread
  have hplace := Function.inPlace_remove hfetch nofun
  have hlt : pos < (s.func.remove pos).size := Function.lt_size_of_fetch (f := s.func) hfetch
  refine ⟨hedit, ?_⟩
  refine obsolete_markAll (s := s.remove pos) h hfetch nofun (Nat.le_of_lt hlt) [src] ?_ ?_
    (fun _ ht => ht) hplace ?_
  · exact fun t ht => ⟨ht, fun _ => nofun⟩
  · exact h.of_fetch hplace (hedit.wellFormed h.wellFormed)
      fun p i hi => (Function.fetch_of_fetch_remove hi).1
  · exact fun p i hi => .inl (Function.fetch_of_fetch_remove hi)

/-- Removing stores to variables that are not read after them, from the first to the last, is a
sequence of changes, and the marks stay right.  No removal puts a read back, so each store is
still dead when it is reached. -/
theorem edits_foldl_removeStore (entries : List (Nat × Inst))
    (hsorted : entries.Pairwise fun a b => a.1 < b.1)
    (hentries : ∀ e ∈ entries, s.func.fetch e.1 = some e.2 ∧ ∃ x src, e.2 = .store x src ∧
      s.func.isVar x = true ∧ s.func.UnreadAfter x e.1)
    (h : s.func.Obsolete s.ctx.obsolete s.func.size) :
  Edits s.func (entries.foldl removeStore s).func ∧
    (entries.foldl removeStore s).func.Obsolete (entries.foldl removeStore s).ctx.obsolete
      (entries.foldl removeStore s).func.size
  := by
  induction entries generalizing s with
  | nil => exact ⟨.refl, h⟩
  | cons e entries ih =>
    obtain ⟨hafter, hrest⟩ := List.pairwise_cons.mp hsorted
    obtain ⟨pos, inst⟩ := e
    obtain ⟨hfetch, x, src, rfl, hx, hunread⟩ := hentries _ List.mem_cons_self
    obtain ⟨hedit, hobsolete⟩ := edit_removeStore h hfetch hx hunread
    have hdone := ih (s := s.removeStore (pos, .store x src)) hrest ?_ hobsolete
    · exact ⟨.head hedit hdone.1, hdone.2⟩
    · intro e he
      obtain ⟨hfetch', x', src', heq, hx', hunread'⟩ := hentries e (List.mem_cons_of_mem _ he)
      refine ⟨?_, x', src', heq, hx', hunread'.of_fetch rfl
        fun p i hi => (Function.fetch_of_fetch_remove hi).1⟩
      exact (Function.fetch_remove ..).trans ((if_neg (Nat.ne_of_gt (hafter e he))).trans hfetch')

/-- A round that removes dead stores is the last one if the intervals show none; otherwise the
next round starts from the code without them. -/
theorem removeStores_succ {s s₁ : State} (h : s.analyze Function.readIntervals = .ok s₁) (fuel : Nat) :
  removeStores (fuel + 1) s = match s₁.func.live.filter s₁.func.isDeadStore with
    | [] => pure s₁
    | dead => removeStores fuel (dead.foldl removeStore s₁).sweep.compact
  := by
  rw [removeStores, h]
  rfl

/-- Finding intervals from reads is a sequence of changes and leaves right marks. -/
theorem reaches_readIntervals {s s₁ : State} (h : s.Settled)
    (hana : s.analyze Function.readIntervals = .ok s₁) :
  s.Reaches s₁
  := by
  have hreach := reaches_analyze h (Function.sameHints_readIntervals s.func)
  rw [hana] at hreach
  apply hreach

/-- What is judged dead is a store to a variable that is read neither after it nor in a loop that
goes on after it. -/
theorem unreadAfter_of_mem {s s₁ : State} (h : s.Settled)
    (hana : s.analyze Function.readIntervals = .ok s₁) {e : Nat × Inst}
    (he : e ∈ s₁.func.live.filter s₁.func.isDeadStore) :
  s₁.func.fetch e.1 = some e.2 ∧ ∃ x src, e.2 = .store x src ∧ s₁.func.isVar x = true ∧
    s₁.func.UnreadAfter x e.1
  := by
  have hcovers := Function.covers_readIntervals h.obsolete.wellFormed (analyze_eq_ok hana).1
  have hsame := hcovers.sameHints.same
  obtain ⟨hlive, hdead⟩ := List.mem_filter.mp he
  obtain ⟨pos, inst⟩ := e
  refine ⟨Function.mem_live.mp hlive, ?_⟩
  unfold Function.isDeadStore at hdead
  cases inst with
  | store x src =>
    simp only [Bool.and_eq_true] at hdead
    obtain ⟨hx, hend⟩ := hdead
    refine ⟨x, src, rfl, hx, ?_⟩
    split at hend
    · rename_i stop hstop
      have hx' : s.func.isVar x = true := by
        rwa [Function.isVar_congr (hsame.kind_eq x)] at hx
      exact (hcovers.unreadAfter hx' hstop (of_decide_eq_true hend)).of_fetch hsame.labels_eq
        fun p i hi => (hsame.fetch_eq p) ▸ hi
    · cases hend
  | _ => cases hdead

/-- One repetition: the stores that are judged dead go. -/
theorem edits_removeUnread {s s₁ : State} (h : s.Settled)
    (hana : s.analyze Function.readIntervals = .ok s₁) :
  let dead := s₁.func.live.filter s₁.func.isDeadStore
  Edits s.func (dead.foldl removeStore s₁).func ∧
    (dead.foldl removeStore s₁).func.Obsolete (dead.foldl removeStore s₁).ctx.obsolete
      (dead.foldl removeStore s₁).func.size
  := by
  intro dead
  have hreach := reaches_readIntervals h hana
  obtain ⟨hedits, hobsolete⟩ := edits_foldl_removeStore dead ((Function.pairwise_live _).filter _)
    (fun e he => unreadAfter_of_mem h hana he) hreach.settled.obsolete
  exact ⟨hreach.edits.trans hedits, hobsolete⟩

/-- The rounds that remove dead stores are a sequence of changes and leave right marks. -/
theorem reaches_removeStores (fuel : Nat) (s : State) (h : s.Settled) :
  s.Reaches (removeStores fuel s).state
  := by
  induction fuel generalizing s with
  | zero => exact .refl h
  | succ fuel ih =>
    cases hana : s.analyze Function.readIntervals with
    | error stopped =>
      have hreach := reaches_analyze h (Function.sameHints_readIntervals s.func)
      rw [hana] at hreach
      rw [removeStores, hana]
      exact hreach
    | ok s₁ =>
      rw [removeStores_succ hana]
      split
      · exact reaches_readIntervals h hana
      · obtain ⟨hedits, hobsolete⟩ := edits_removeUnread h hana
        obtain ⟨hsweep, hsettled⟩ := settled_sweep hobsolete
        have hround : s.Reaches _ := ⟨hedits.trans hsweep, hsettled⟩
        exact hround.trans (ih _ hsettled)

end State

end StackCompiler.IR
