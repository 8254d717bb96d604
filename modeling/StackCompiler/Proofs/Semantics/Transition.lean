/-!
# Runs of deterministic machines

A machine is a function `step` that gives the next state or the outcome.  `run` takes a
number of steps, and an outcome once reached stays.  `exists_run_of_simulation` carries
an outcome of one machine over to another that keeps up with it.
-/

namespace StackCompiler

/-- How far a run has come: it goes on from a state, or it has ended. -/
inductive Progress (σ ω : Type) where
  | running (state : σ)
  | ended (outcome : ω)

namespace Progress

variable {σ σ' ω ω' : Type}

/-- The progress that a number of steps make. -/
def run (step : σ → Progress σ ω) : Nat → σ → Progress σ ω
  | 0, s => .running s
  | n + 1, s =>
    match step s with
    | .running s' => run step n s'
    | .ended o => .ended o

variable {step : σ → Progress σ ω} {step' : σ' → Progress σ' ω'} {n : Nat} {s s' : σ} {t : σ'} {o : ω}

theorem run_one (s : σ) :
  run step 1 s = step s
  := by
  simp only [run]
  cases step s <;> rfl

theorem run_succ_of_running (h : step s = .running s') (n : Nat) :
  run step (n + 1) s = run step n s'
  := by
  simp only [run, h]

theorem run_succ_of_ended (h : step s = .ended o) (n : Nat) :
  run step (n + 1) s = .ended o
  := by
  simp only [run, h]

/-- A run that has come to a state goes on from there. -/
theorem run_add_of_running {m : Nat} (h : run step m s = .running s') (n : Nat) :
  run step (m + n) s = run step n s'
  := by
  induction m generalizing s with
  | zero =>
    cases h
    rw [Nat.zero_add]
  | succ m ih =>
    rw [Nat.add_right_comm]
    cases hs : step s with
    | running t =>
      rw [run_succ_of_running hs] at h ⊢
      apply ih h
    | ended o =>
      rw [run_succ_of_ended hs] at h
      cases h

/-- A run that has ended stays so. -/
theorem run_add_of_ended {m : Nat} (h : run step m s = .ended o) (n : Nat) :
  run step (m + n) s = .ended o
  := by
  induction m generalizing s with
  | zero => cases h
  | succ m ih =>
    rw [Nat.add_right_comm]
    cases hs : step s with
    | running t =>
      rw [run_succ_of_running hs] at h ⊢
      apply ih h
    | ended o' =>
      rw [run_succ_of_ended hs] at h ⊢
      apply h

/-- A machine comes to one outcome at most. -/
theorem ended_unique {m : Nat} {o' : ω} (h : run step m s = .ended o) (h' : run step n s = .ended o') :
  o = o'
  := by
  have hm := run_add_of_ended h n
  rw [Nat.add_comm, run_add_of_ended h' m] at hm
  cases hm
  rfl

/-- One more step after a run. -/
theorem run_succ_eq (h : run step n s = .running s') :
  run step (n + 1) s = step s'
  := by
  rw [run_add_of_running h 1, run_one]

/-- What holds at the start and is kept by every step holds along a run. -/
theorem invariant_of_run {I : σ → Prop} (keep : ∀ s s', I s → step s = .running s' → I s') (hs : I s)
    (h : run step n s = .running s') :
  I s'
  := by
  induction n generalizing s with
  | zero =>
    cases h
    apply hs
  | succ n ih =>
    cases ht : step s with
    | running t =>
      rw [run_succ_of_running ht] at h
      apply ih (keep s t hs ht) h
    | ended o =>
      rw [run_succ_of_ended ht] at h
      cases h

/-- Machines that make the same steps wherever a run can come make the same runs. -/
theorem run_congr {step₁ step₂ : σ → Progress σ ω} {I : σ → Prop}
    (keep : ∀ s s', I s → step₁ s = .running s' → I s') (heq : ∀ s, I s → step₂ s = step₁ s) (hs : I s)
    (n : Nat) :
  run step₂ n s = run step₁ n s
  := by
  induction n generalizing s with
  | zero => rfl
  | succ n ih =>
    cases ht : step₁ s with
    | running t =>
      rw [run_succ_of_running ht, run_succ_of_running ((heq s hs).trans ht)]
      apply ih (keep s t hs ht)
    | ended o => rw [run_succ_of_ended ht, run_succ_of_ended ((heq s hs).trans ht)]

/-- When a run that comes to an outcome meets a run of another machine again and again, the
other comes to an outcome too.  The induction is on the steps that are left. -/
theorem exists_run_of_leaps {R : σ → σ' → Prop} {E : ω → ω' → Prop}
    (hleap : ∀ s t n, R s t → run step n s = .ended o → (∃ m o', run step' m t = .ended o' ∧ E o o') ∨ ∃ k s' m t', run step (k + 1) s = .running s' ∧ run step' m t = .running t' ∧ R s' t')
    (hr : R s t) (hs : run step n s = .ended o) :
  ∃ m o', run step' m t = .ended o' ∧ E o o'
  := by
  induction n using Nat.strongRecOn generalizing s t with
  | ind n ih =>
    rcases hleap s t n hr hs with hend | ⟨k, s', m, t', hs', ht', hr'⟩
    · apply hend
    · have hlt : k + 1 < n := by
        rcases Nat.lt_or_ge (k + 1) n with hlt | hge
        · exact hlt
        · have hended := run_add_of_ended hs (k + 1 - n)
          rw [Nat.add_sub_cancel' hge, hs'] at hended
          cases hended
      have hrest : run step (n - (k + 1)) s' = .ended o := by
        rw [← run_add_of_running hs', Nat.add_sub_cancel' (Nat.le_of_lt hlt), hs]
      obtain ⟨j, o', hj, he⟩ := ih (n - (k + 1)) (by omega) hr' hrest
      exact ⟨m + j, o', by rw [run_add_of_running ht', hj], he⟩

/-- Along related states, each step of one machine is matched by some steps of the other. -/
def Simulates (step : σ → Progress σ ω) (step' : σ' → Progress σ' ω') (R : σ → σ' → Prop) : Prop :=
  ∀ s t s', R s t → step s = .running s' → ∃ n t', run step' n t = .running t' ∧ R s' t'

/-- If every step is simulated, every run is: the other machine comes to a state that corresponds.
-/
theorem Simulates.run {R : σ → σ' → Prop} (hR : Simulates step step' R) {n : Nat} {s s' : σ}
    {t : σ'} (h : R s t) (hs : run step n s = .running s') :
  ∃ m t', run step' m t = .running t' ∧ R s' t'
  := by
  induction n generalizing s t with
  | zero =>
    cases hs
    exact ⟨0, t, rfl, h⟩
  | succ n ih =>
    cases hstep : step s with
    | running u =>
      rw [run_succ_of_running hstep] at hs
      obtain ⟨m, t₁, ht₁, hu⟩ := hR s t u h hstep
      obtain ⟨k, t', ht', hs'⟩ := ih hu hs
      exact ⟨m + k, t', by rw [run_add_of_running ht₁, ht'], hs'⟩
    | ended o =>
      rw [run_succ_of_ended hstep] at hs
      cases hs

/-- A run that ends is a run to some state followed by its last step. -/
theorem exists_last_step (h : run step n s = .ended o) :
  ∃ m s', run step m s = .running s' ∧ step s' = .ended o
  := by
  induction n generalizing s with
  | zero => cases h
  | succ n ih =>
    cases hs : step s with
    | running t =>
      rw [run_succ_of_running hs] at h
      obtain ⟨m, s', hm, ho⟩ := ih h
      exact ⟨m + 1, s', by rw [run_succ_of_running hs, hm], ho⟩
    | ended o' =>
      rw [run_succ_of_ended hs] at h
      cases h
      exact ⟨0, s, rfl, hs⟩

/-- When one machine simulates another and last steps are matched too, an outcome of the
first is an outcome of the second, up to `E`. -/
theorem exists_run_of_simulation {R : σ → σ' → Prop} (hR : Simulates step step' R) {E : ω → ω' → Prop}
    (h : R s t) (hlast : ∀ s t, R s t → step s = .ended o → ∃ m o', run step' m t = .ended o' ∧ E o o')
    (hs : run step n s = .ended o) :
  ∃ m o', run step' m t = .ended o' ∧ E o o'
  := by
  obtain ⟨m, s', hm, ho⟩ := exists_last_step hs
  obtain ⟨k, t', ht', hr⟩ := hR.run h hm
  obtain ⟨j, o', hj, he⟩ := hlast s' t' hr ho
  exact ⟨k + j, o', by rw [run_add_of_running ht', hj], he⟩

/-- The step from a state is matched by steps of the other machine, a state by a state and
an outcome by an outcome.  A step that is matched by none lowers `rank`. -/
def Matched (step : σ → Progress σ ω) (step' : σ' → Progress σ' ω') (R : σ → σ' → Prop)
    (E : ω → ω' → Prop) (rank : σ → Nat) (s : σ) (t : σ') : Prop :=
  (∃ s' n t', step s = .running s' ∧ run step' n t = .running t' ∧ R s' t' ∧
    (n = 0 → rank s' < rank s)) ∨
  (∃ o n o', step s = .ended o ∧ run step' n t = .ended o' ∧ E o o')

/-- The steps from related states are matched. -/
def Matches (step : σ → Progress σ ω) (step' : σ' → Progress σ' ω') (R : σ → σ' → Prop)
    (E : ω → ω' → Prop) (rank : σ → Nat) : Prop :=
  ∀ s t, R s t → Matched step step' R E rank s t

section Matches

variable {R : σ → σ' → Prop} {E : ω → ω' → Prop} {rank : σ → Nat}

/-- A machine whose steps are matched is simulated. -/
theorem Matches.simulates (h : Matches step step' R E rank) :
  Simulates step step' R
  := by
  intro s t s' hr hs
  rcases h s t hr with ⟨u, n, t', hu, ht', hr', -⟩ | ⟨o, n, o', ho, -, -⟩
  · rw [hs] at hu
    cases hu
    exact ⟨n, t', ht', hr'⟩
  · rw [hs] at ho
    cases ho

/-- Outcomes of the first machine are outcomes of the second. -/
theorem Matches.exists_run (h : Matches step step' R E rank) (hr : R s t) (hs : run step n s = .ended o) :
  ∃ m o', run step' m t = .ended o' ∧ E o o'
  := by
  apply exists_run_of_simulation h.simulates hr _ hs
  intro s t hr ho
  rcases h s t hr with ⟨u, n, t', hu, -, -, -⟩ | ⟨o₁, n, o', ho₁, ht, he⟩
  · rw [ho] at hu
    cases hu
  · rw [ho] at ho₁
    cases ho₁
    exact ⟨n, o', ht, he⟩

/-- Outcomes of the second machine are outcomes of the first.  The induction is on the
steps that the second has left, and on the rank while it makes none. -/
theorem Matches.exists_run_of_run (h : Matches step step' R E rank) {o' : ω'} (hr : R s t)
    (ht : run step' n t = .ended o') :
  ∃ m o, run step m s = .ended o ∧ E o o'
  := by
  induction n using Nat.strongRecOn generalizing s t with
  | ind n ihn =>
    induction hk : rank s using Nat.strongRecOn generalizing s with
    | ind k ihk =>
      rcases h s t hr with ⟨s', j, t', hs', ht', hr', hrank⟩ | ⟨o, j, o'', ho, ht', he⟩
      · have hgo : ∃ m o, run step m s' = .ended o ∧ E o o' := by
          rcases Nat.eq_zero_or_pos j with rfl | hj
          · cases ht'
            exact ihk (rank s') (hk ▸ hrank rfl) hr' rfl
          · rcases Nat.lt_or_ge j n with hlt | hge
            · apply ihn (n - j) (by omega) hr'
              rw [← run_add_of_running ht', Nat.add_sub_cancel' (Nat.le_of_lt hlt)]
              exact ht
            · have := run_add_of_ended ht (j - n)
              rw [Nat.add_sub_cancel' hge, ht'] at this
              cases this
        obtain ⟨m, o, hm, he⟩ := hgo
        exact ⟨m + 1, o, by rw [run_succ_of_running hs', hm], he⟩
      · cases ended_unique ht ht'
        exact ⟨1, o, by rw [run_one, ho], he⟩

/-- Wherever the second machine is, it can go on until the two have come equally far. -/
theorem Matches.exists_meeting (h : Matches step step' R E rank) {t₁ : σ'} (hr : R s t)
    (ht : run step' n t = .running t₁) :
  (∃ m s' k t', run step m s = .running s' ∧ run step' k t₁ = .running t' ∧ R s' t') ∨
  (∃ m o k o', run step m s = .ended o ∧ run step' k t₁ = .ended o' ∧ E o o')
  := by
  induction n using Nat.strongRecOn generalizing s t with
  | ind n ihn =>
    induction hk : rank s using Nat.strongRecOn generalizing s with
    | ind k ihk =>
      rcases h s t hr with ⟨s', j, t', hs', ht', hr', hrank⟩ | ⟨o, j, o', ho, ht', he⟩
      · rcases Nat.lt_or_ge n j with hlt | hge
        · left
          refine ⟨1, s', j - n, t', by rw [run_one, hs'], ?_, hr'⟩
          rw [← run_add_of_running ht, Nat.add_sub_cancel' (Nat.le_of_lt hlt), ht']
        · have hgo : (∃ m u k t', run step m s' = .running u ∧ run step' k t₁ = .running t' ∧ R u t') ∨
              (∃ m o k o', run step m s' = .ended o ∧ run step' k t₁ = .ended o' ∧ E o o') := by
            rcases Nat.eq_zero_or_pos j with rfl | hj
            · cases ht'
              exact ihk (rank s') (hk ▸ hrank rfl) hr' rfl
            · apply ihn (n - j) (by omega) hr'
              rw [← run_add_of_running ht', Nat.add_sub_cancel' hge, ht]
          rcases hgo with ⟨m, u, k, t'', hm, hk', hu⟩ | ⟨m, o, k, o', hm, hk', he⟩
          · left
            exact ⟨m + 1, u, k, t'', by rw [run_succ_of_running hs', hm], hk', hu⟩
          · right
            exact ⟨m + 1, o, k, o', by rw [run_succ_of_running hs', hm], hk', he⟩
      · right
        refine ⟨1, o, j, o', by rw [run_one, ho], ?_, he⟩
        rw [← run_add_of_running ht, Nat.add_comm, run_add_of_ended ht']

end Matches

end Progress

end StackCompiler
