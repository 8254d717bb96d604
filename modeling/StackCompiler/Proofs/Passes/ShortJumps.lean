import StackCompiler.Proofs.Passes.Wiring

/-!
# Short jumps stand next to their labels

A short jump reaches as far as one byte can say.  If the options allow the short form to
neighbours only, then the code that the optimizer leaves has short jumps directly before or
after their labels: no change moves instructions apart that stand next to each other, except
for a store and a load.
-/

namespace StackCompiler.IR

namespace Function

variable {f f' : Function} {pos : Nat}

/-- Short jumps stand directly before or after their labels. -/
def Close (f : Function) : Prop :=
  ∀ p l, f.fetch p = some (.shortJump l) →
    ∃ t, f.fetch t = some (.label l) ∧ (f.Adjacent p t ∨ f.Adjacent t p)

/-! ### Changes in place -/

theorem Adjacent.mono {q p : Nat} (h : f.Adjacent q p) (hnone : ∀ r, f.fetch r = none → f'.fetch r = none) :
  f'.Adjacent q p
  := ⟨h.1, fun r hqr hrp => hnone r (h.2 r hqr hrp)⟩

/-- A change in place that makes no short jump leaves short jumps next to their labels. -/
theorem InPlace.close (h : f.InPlace f') (hc : f.Close)
    (hview : ∀ p i', f'.fetch p = some i' →
      ∃ i, f.fetch p = some i ∧ ∀ l, i' = .shortJump l → i = .shortJump l) :
  f'.Close
  := by
  have hnone : ∀ r, f.fetch r = none → f'.fetch r = none := by
    intro r hr
    cases hr' : f'.fetch r with
    | none => rfl
    | some i' =>
      obtain ⟨i, hi, -⟩ := hview r i' hr'
      rw [hr] at hi
      cases hi
  intro p l hp
  obtain ⟨i, hi, hshort⟩ := hview p _ hp
  cases hshort l rfl
  obtain ⟨t, ht, hadj⟩ := hc p l hi
  refine ⟨t, (h.label_iff t l).mpr ht, ?_⟩
  exact hadj.imp (fun hadj => hadj.mono hnone) fun hadj => hadj.mono hnone

/-- Replacing an instruction by one that is no short jump leaves short jumps next to their labels.
-/
theorem InPlace.close_of_replaced (h : f.InPlace f') (hc : f.Close) {old new : Inst}
    (hold : f.fetch pos = some old)
    (hview : ∀ p, f'.fetch p = if p = pos then some new else f.fetch p)
    (hnew : ∀ l, new ≠ .shortJump l) :
  f'.Close
  := by
  apply h.close hc
  intro p i' hi'
  rw [hview] at hi'
  split at hi'
  · rename_i hp
    cases hi'
    exact ⟨old, hp ▸ hold, fun l hl => absurd hl (hnew l)⟩
  · exact ⟨i', hi', fun _ hl => hl⟩

/-- Removing an instruction that is no label leaves short jumps next to their labels. -/
theorem close_remove (hc : f.Close) {old : Inst} (hfetch : f.fetch pos = some old)
    (hold : ∀ l, old ≠ .label l) :
  (f.remove pos).Close
  := by
  apply (inPlace_remove hfetch hold).close hc
  intro p i hi
  exact ⟨i, (fetch_of_fetch_remove hi).1, fun _ hl => hl⟩

/-- Functions with the same code have short jumps next to their labels alike. -/
theorem SameCode.close (h : f.SameCode f') (hc : f.Close) :
  f'.Close
  := by
  apply h.inPlace.close hc
  intro p i hi
  rw [h.fetch_eq] at hi
  exact ⟨i, hi, fun _ hl => hl⟩

/-! ### Changes that move code -/

/-- Compaction leaves short jumps next to their labels, and moves none there. -/
theorem Compacts.close_iff {φ : Nat → Nat} (h : f.Compacts f' φ) :
  f'.Close ↔ f.Close
  := by
  constructor
  · intro hc p l hp
    obtain ⟨t, ht, hadj⟩ := hc _ l (h.keep p _ hp).2
    obtain ⟨t, rfl, ht'⟩ := h.exists_of_fetch ht
    exact ⟨t, ht', hadj.imp (h.adjacent_iff hp ht').mp (h.adjacent_iff ht' hp).mp⟩
  · intro hc p l hp
    obtain ⟨p, rfl, hp'⟩ := h.exists_of_fetch hp
    obtain ⟨t, ht, hadj⟩ := hc p l hp'
    exact ⟨_, (h.keep t _ ht).2, hadj.imp (h.adjacent_iff hp' ht).mpr (h.adjacent_iff ht hp').mpr⟩

/-- Forwarding a stored value to a load leaves short jumps next to their labels: what it moves is
the store and the load. -/
theorem close_forwarded (wf : f.WellFormed) (hc : f.Close) (hp : f.pending = [])
    {location src dest : OperandId} (hpair : f.storeThenLoad? pos = some (location, src, dest)) :
  (f.forwarded pos location src dest).Close
  := by
  obtain ⟨φ, hφ⟩ := compacts_roomToForward wf hp hpair
  have hcr := hφ.close_iff.mp hc
  intro p l hshort
  have hshort' : (f.roomToForward pos location).fetch p = some (.shortJump l) := by
    rw [fetch_forwarded wf hp hpair] at hshort
    split at hshort
    · cases hshort
    · split at hshort
      · cases hshort
      · split at hshort
        · cases hshort
        · exact hshort
  obtain ⟨t, ht, hadj⟩ := hcr p l hshort'
  obtain ⟨hpne, -⟩ := fetch_forwarded_of_ne wf hp hpair hshort' nofun nofun
  obtain ⟨htne, hlabel⟩ := fetch_forwarded_of_ne wf hp hpair ht nofun nofun
  refine ⟨t, hlabel, ?_⟩
  exact hadj.imp (adjacent_forwarded wf hp hpair hpne) (adjacent_forwarded wf hp hpair htne)

/-- An entry load at the top leaves short jumps next to their labels. -/
theorem close_loaded (hc : f.Close) (hp : f.pending = []) {x : OperandId} :
  (f.inserted 0 (.forceLoad x)).Close
  := by
  intro p l hshort
  rcases fetch_loaded_cases hp hshort with ⟨-, hload⟩ | ⟨p, rfl, hshort'⟩
  · cases hload
  · obtain ⟨t, ht, hadj⟩ := hc p l hshort'
    refine ⟨t + 1, (fetch_loaded_succ hp t).trans ht, ?_⟩
    exact hadj.imp (adjacent_loaded hp) (adjacent_loaded hp)

/-- Entry loads at the top leave short jumps next to their labels. -/
theorem close_withLoads (hc : f.Close) (hp : f.pending = []) (xs : List OperandId) :
  (f.withLoads xs).Close
  := by
  induction xs with
  | nil => exact hc
  | cons x xs ih => exact close_loaded ih ((pending_withLoads f xs).trans hp)

/-- A jump to a label at the next position, or at the one before, may take the short form. -/
theorem close_shortened (hc : f.Close) {l : Label} (hfetch : f.fetch pos = some (.jump l))
    {target : Nat} (htarget : f.fetch target = some (.label l))
    (hnear : (pos - target) + (target - pos) ≤ 1) :
  (f.replace pos (.shortJump l)).Close
  := by
  have hview : ∀ p, (f.replace pos (.shortJump l)).fetch p = _ := fetch_replace hfetch (.shortJump l)
  have hnone : ∀ r, f.fetch r = none → (f.replace pos (.shortJump l)).fetch r = none := by
    intro r hr
    rw [hview, if_neg, hr]
    rintro rfl
    rw [hfetch] at hr
    cases hr
  have hlabel : ∀ t l', f.fetch t = some (.label l') →
      (f.replace pos (.shortJump l)).fetch t = some (.label l') := by
    intro t l' ht
    rw [hview, if_neg, ht]
    rintro rfl
    rw [hfetch] at ht
    cases ht
  intro p l' hp
  rw [hview] at hp
  split at hp
  · rename_i hpos
    cases hp
    refine ⟨target, hlabel target _ htarget, ?_⟩
    have hne : target ≠ p := by
      rintro rfl
      rw [hpos, hfetch] at htarget
      cases htarget
    -- No position is between the two.
    rcases Nat.lt_or_gt_of_ne hne with hlt | hgt
    · exact .inr ⟨hlt, fun r h₁ h₂ => by omega⟩
    · exact .inl ⟨hgt, fun r h₁ h₂ => by omega⟩
  · obtain ⟨t, ht, hadj⟩ := hc p l' hp
    exact ⟨t, hlabel t l' ht, hadj.imp (·.mono hnone) (·.mono hnone)⟩

end Function

open IR.Function

/-- Every change of a round keeps short jumps next to their labels. -/
theorem Edit.close {f f' : Function} (h : Edit f f') (wf : f.WellFormed) (hc : f.Close) :
  f'.Close
  := by
  cases h with
  | annotate same => exact same.close hc
  | fold hfetch hresult =>
    have hlabel := (defs_of_foldInst? hresult).2.2
    exact (inPlace_foldedTo hfetch hlabel).close_of_replaced hc hfetch (fetch_foldedTo hfetch)
      fun _ => nofun
  | specialize hfetch =>
    exact (inPlace_specialized hfetch).close_of_replaced hc hfetch (fetch_specialized hfetch)
      fun _ => nofun
  | rename hfetch htemp =>
    apply (inPlace_renamed ..).close hc
    intro p i' hi'
    obtain ⟨i, hi, rfl⟩ := fetch_renamed_eq_some.mp hi'
    refine ⟨i, hi, fun l hl => ?_⟩
    cases i <;> cases hl
    rfl
  | erase hfetch hpure =>
    apply close_remove hc hfetch
    rintro l rfl
    cases hpure
  | eraseAssertion hfetch => exact close_remove hc hfetch fun _ => nofun
  | narrow hfetch =>
    obtain ⟨a, b, hold, -, hplace⟩ := exists_fork hfetch
    exact hplace.close_of_replaced hc hold (fetch_replace hold _) fun _ => nofun
  | eraseStore hfetch => exact close_remove hc hfetch fun _ => nofun
  | forward hpending hpair => exact close_forwarded wf hc hpending hpair
  | compact =>
    obtain ⟨φ, hφ⟩ := compacts_compact wf.labels
    exact hφ.close_iff.mpr hc

/-- Every sequence of changes leaves short jumps next to their labels. -/
theorem Edits.close {f f' : Function} (h : Edits f f') (wf : f.WellFormed) (hc : f.Close) :
  f'.Close
  := by
  induction h with
  | refl => exact hc
  | tail hedits hstep ih => exact hstep.close (Edits.wellFormed hedits wf) ih

/-- Lowered code has no short jumps. -/
theorem Lowering.close_lower {f : Bytecode.Function} {g : Function} (h : lower f = .ok g) :
  g.Close
  := by
  intro p l hp
  obtain ⟨s, hs, rfl, -⟩ := lower_eq_ok h
  obtain ⟨k, hk, hc⟩ := exists_covers (Nat.le_refl _) hs (lt_size_of_fetch hp)
  obtain ⟨i, r, r', operation, operand, dest, dest', insts, -, -, -, -, -, -, hem, hj⟩ :=
    emission_of_covers h hk hc hp
  exact absurd rfl ((hem.places (List.mem_of_getElem? hj)).2.2.2 l)

/-! ### Calls of passes -/

namespace State

variable {s : State}

/-- A sweep with the compaction after it leaves short jumps next to their labels. -/
theorem close_sweep (h : s.Orderly) (hc : s.func.Close) :
  s.sweep.compact.func.Close
  := (settled_sweep h.obsolete).1.close h.obsolete.wellFormed hc

/-- A pass that shortens jumps to neighbours only. -/
theorem close_shortJumps (h : s.Orderly) (hc : s.func.Close)
    (hmax : s.ctx.options.shortJumpMax.toNat ≤ 1) :
  (Attempt.state (shortJumps s)).Orderly ∧ (Attempt.state (shortJumps s)).func.Close
  := by
  have hvisit : ∀ (s' : State) pos inst,
      s'.Orderly ∧ s'.func.Close ∧ s'.ctx.options = s.ctx.options → s'.func.fetch pos = some inst →
      ((Attempt.state (s'.shortenAt (pos, inst))).Orderly ∧
        (Attempt.state (s'.shortenAt (pos, inst))).func.Close ∧
        (Attempt.state (s'.shortenAt (pos, inst))).ctx.options = s.ctx.options) ∧
      ∀ p, p ≠ pos → (Attempt.state (s'.shortenAt (pos, inst))).func.fetch p = s'.func.fetch p := by
    rintro s' pos inst ⟨ho, hc, hoptions⟩ hfetch
    obtain ⟨ho', hkeep⟩ := orderly_shortenAt ho hfetch
    rcases s'.shortenAt_cases pos inst with hsame | ⟨l, target, stats, rfl, htarget, hnear, hshort⟩
    · rw [hsame] at ho' hkeep ⊢
      exact ⟨⟨ho', hc, hoptions⟩, hkeep⟩
    · rw [hshort] at ho' hkeep ⊢
      rw [hoptions] at hnear
      refine ⟨⟨ho', ?_, hoptions⟩, hkeep⟩
      exact close_shortened hc hfetch ((ho.obsolete.wellFormed.labels l target).mp htarget)
        (Nat.le_trans hnear hmax)
  obtain ⟨ho, hc, -⟩ := holds_foldlM_live shortenAt hvisit ⟨h, hc, rfl⟩
  exact ⟨ho, hc⟩

/-- A call of a pass keeps short jumps next to their labels. -/
theorem close_run (h : s.Orderly) (hc : s.func.Close) (hmax : s.ctx.options.shortJumpMax.toNat ≤ 1)
    (p : PassName) :
  (p.run s).state.func.Close
  := by
  have hrun : (Attempt.state (p.pass s)).Orderly → (Attempt.state (p.pass s)).func.Close →
      (p.run s).state.func.Close := by
    unfold PassName.run Pass.run
    intro ho hpass
    cases hs : p.pass s with
    | error stopped =>
      rw [hs] at hpass
      exact hpass
    | ok s₁ =>
      rw [hs] at ho hpass
      exact close_sweep ho hpass
  by_cases hload : p = .loadVars
  · subst hload
    obtain ⟨hloads, hsettled⟩ := settled_loadVars h.toSettled
    change (Attempt.state (IR.loadVars s)).Orderly → (Attempt.state (IR.loadVars s)).func.Close → _
      at hrun
    rw [hloads] at hrun
    exact hrun ⟨hsettled, wired_withLoads h.wired h.pending _⟩ (close_withLoads hc h.pending _)
  · by_cases hshort : p = .shortJumps
    · subst hshort
      obtain ⟨ho, hpass⟩ := close_shortJumps h hc hmax
      exact hrun ho hpass
    · exact (PassName.reaches_run hload hshort h.toSettled).edits.close h.obsolete.wellFormed hc

end State

end StackCompiler.IR
