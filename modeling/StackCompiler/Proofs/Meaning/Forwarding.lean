import StackCompiler.Proofs.Meaning.Folding

/-!
# Values forwarded past a store

A load directly after a store to the same place gives what was stored.  So the value can be
forked, one copy be stored and the other be taken in the place of the load.  The two codes
differ in between, and agree again after the load.
-/

namespace StackCompiler.IR.Function

variable {World : Type} {f : Function} {pos : Nat} {location src dest : OperandId} {rt : Runtime World}
  {locals : Nat → Value} {c c' d : Config World}

/-- A run that returns, but not now, goes on. -/
theorem exists_step_of_returns {n : Nat} {v : Value} {w : World} {trace : List Request}
    (hrun : f.run rt locals n c = .ended (.returned v w trace))
    (hne : f.step rt locals c ≠ .ended (.returned v w trace)) :
  ∃ d m, f.step rt locals c = .running d ∧ f.run rt locals m d = .ended (.returned v w trace)
  := by
  cases n with
  | zero => cases hrun
  | succ n =>
    unfold run at hrun
    cases hstep : f.step rt locals c with
    | running d =>
      rw [Progress.run_succ_of_running hstep] at hrun
      exact ⟨d, n, rfl, hrun⟩
    | ended o =>
      rw [Progress.run_succ_of_ended hstep] at hrun
      cases hrun
      exact absurd hstep hne

/-- A store does the same in every state in which the same value is stored in the same world. -/
theorem store_congr {f' : Function} {src' : OperandId} (hlt : c.pos < f.size)
    (hfetch : f.fetch c.pos = some (.store location src)) (hlt' : c'.pos < f'.size)
    (hfetch' : f'.fetch c'.pos = some (.store location src'))
    (hkind : f'.kind location = f.kind location) (hread : f'.read rt c' src' = f.read rt c src)
    (hworld : c'.world = c.world) (hd : f.step rt locals c = .running d) :
  ∃ d', f'.step rt locals c' = .running d' ∧ (d.pos = c.pos + 1 ∧ d'.pos = c'.pos + 1) ∧
    d'.world = d.world ∧ (d.result = c.result ∧ d'.result = c'.result) ∧
    (∃ new, d.trace = c.trace ++ new ∧ d'.trace = c'.trace ++ new) ∧
    (∀ id, c'.cells id = c.cells id → d'.cells id = d.cells id) ∧
    ∀ id, id ≠ location → d'.cells id = c'.cells id
  := by
  rw [step_of_fetch hlt hfetch] at hd
  rw [step_of_fetch hlt' hfetch']
  have haction : (Inst.store location src').action f' rt (f'.read rt c')
      = (Inst.store location src).action f rt (f.read rt c) := by
    simp only [Inst.action, hkind, hread]
  rw [haction]
  rcases Inst.action_store f rt (f.read rt c) location src with hfill | ⟨-, request, hask⟩
  · rw [hfill] at hd ⊢
    cases hd
    refine ⟨_, rfl, ⟨rfl, rfl⟩, hworld, ⟨rfl, rfl⟩, ⟨[], ?_, ?_⟩, ?_, ?_⟩
    · exact (List.append_nil _).symm
    · exact (List.append_nil _).symm
    · exact fun id hid => Cells.fill_congr (.inl hid)
    · exact fun id hid => Cells.put_of_ne _ _ hid
  · rw [hask] at hd ⊢
    obtain ⟨v, w, hserve, rfl⟩ := exists_answer hd
    simp only [perform, hworld, hserve]
    exact ⟨_, rfl, ⟨rfl, rfl⟩, rfl, ⟨rfl, rfl⟩, ⟨[request], rfl, rfl⟩, fun _ h => h, fun _ _ => rfl⟩

/-- A request that is no effect leaves the world alone and gives what the runtime promises. -/
theorem answer_after_write (hrt : rt.Lawful) {request : Request} (hrequest : request.isEffect = false)
    {v : Value} {w : World} (hlaw : ∀ x w', rt.serve request w = some (x, w') → x = v)
    (hworld : c.world = w) (hd : f.perform rt locals c (.ask request (.operand dest)) = .running d) :
  d.pos = c.pos + 1 ∧ d.cells = c.cells.put dest v ∧ d.result = c.result ∧ d.world = c.world ∧
    effects d.trace = effects c.trace
  := by
  obtain ⟨x, w', hserve, rfl⟩ := exists_answer hd
  cases hlaw x w' (hworld ▸ hserve)
  refine ⟨rfl, rfl, rfl, hrt.world_eq request _ _ _ hrequest hserve, ?_⟩
  change effects (c.trace ++ [request]) = _
  rw [effects_append]
  simp [effects, hrequest]

/-- A load directly after a store to the same place gives what was stored. -/
theorem load_after_store (hrt : rt.Lawful) {e : Config World} (hlt : c.pos < f.size)
    (hstore : f.fetch c.pos = some (.store location src))
    (hplace : f.isVar location = true ∨ (∃ n, f.kind location = .global n) ∨
      ∃ n, f.kind location = .contents n)
    (hd : f.step rt locals c = .running d) (hcells : e.cells = d.cells) (hworld : e.world = d.world)
    (hload : f.fetch e.pos = some (.assign dest location)) {e' : Config World}
    (he : f.step rt locals e = .running e') :
  e'.pos = e.pos + 1 ∧ e'.cells = e.cells.put dest (f.read rt c src) ∧ e'.result = e.result ∧
    e'.world = e.world ∧ effects e'.trace = effects e.trace
  := by
  rw [step_of_fetch hlt hstore] at hd
  rw [step_of_fetch (lt_size_of_fetch hload) hload] at he
  rcases hplace with hvar | ⟨n, hn⟩ | ⟨n, hn⟩
  · obtain ⟨n, hn⟩ := isVar_iff.mp hvar
    simp only [Inst.action, hn] at hd he
    cases hd
    cases he
    have hread : f.read rt e location = f.read rt c src := by
      unfold read
      rw [hn, hcells]
      apply Cells.put_self
    rw [hread]
    exact ⟨rfl, rfl, rfl, rfl, rfl⟩
  · simp only [Inst.action, hn] at hd he
    obtain ⟨u, w, hserve, rfl⟩ := exists_answer hd
    exact answer_after_write hrt rfl (fun x w' => hrt.global_written n _ u x _ w w' hserve) hworld he
  · simp only [Inst.action, hn] at hd he
    obtain ⟨u, w, hserve, rfl⟩ := exists_answer hd
    exact answer_after_write hrt rfl (fun x w' => hrt.cell_written n _ u x _ w w' hserve) hworld he

section Pair

variable {f' : Function} (h : f.InPlace f') (wf : f.WellFormed) (wf' : f'.WellFormed) (hlocal' : f'.Local)
  (hc : f.Agrees f' c c') (h₀ : f.fetch c.pos = some (.store location src)) {t u : OperandId}
  (ht : f.operands.size ≤ t) (hu : f.operands.size ≤ u) (h₀' : f'.fetch c.pos = some (.fork src t u))
  (h₁' : f'.fetch (c.pos + 1) = some (.store location t))
include h wf wf' hlocal' hc h₀ ht hu h₀' h₁'

/-- A fork and a store of one copy do what the store does, and leave the other copy. -/
theorem Agrees.fork_then_store (hd : f.step rt locals c = .running d) :
  ∃ d', f'.run rt locals 2 c' = .running d' ∧ (d.pos = c.pos + 1 ∧ d'.pos = c.pos + 2) ∧
    d'.result = d.result ∧ d'.world = d.world ∧ effects d'.trace = effects d.trace ∧
    (∀ id, id < f.operands.size → c'.cells id = c.cells id → d'.cells id = d.cells id) ∧
    d'.cells u = f.read rt c src
  := by
  have hfits := wf.fits _ _ h₀
  have hsrc : src ∈ (Inst.store location src).uses := List.mem_singleton.mpr rfl
  have hlocation := (hfits.store_place location src rfl).1
  have htemp := ((wf'.fits _ _ h₀').def_temp t List.mem_cons_self).2
  have hread : f'.read rt c' src = f.read rt c src := by
    apply hc.read_eq h wf' hlocal' h₀' (List.mem_singleton.mpr rfl) (hfits.use_lt src hsrc)
    obtain ⟨n, hn⟩ := isTemp_iff.mp (wf.isTemp_of_uses h₀ hsrc fun _ => nofun)
    rw [hn]
    rfl
  -- The fork fills both copies.
  obtain ⟨e, he, hpos, hresult, hworld, htrace, hcells⟩ : ∃ e, f'.step rt locals c' = .running e ∧
      e.pos = c.pos + 1 ∧ e.result = c.result ∧ e.world = c.world ∧ e.trace = c'.trace ∧
      e.cells = (c'.cells.put t (f.read rt c src)).put u (f.read rt c src) := by
    refine ⟨_, step_of_fill (hc.pos ▸ h₀') rfl, ?_, hc.result, hc.world, rfl, ?_⟩
    · exact congrArg (· + 1) hc.pos
    · rw [← hread]
      rfl
  have htcell : e.cells t = f.read rt c src := by
    rw [hcells]
    by_cases htu : t = u
    · rw [htu, Cells.put_self]
    · rw [Cells.put_of_ne _ _ htu, Cells.put_self]
  have hfetch : f'.fetch e.pos = some (.store location t) := by
    rw [hpos, h₁']
  obtain ⟨d', hd', ⟨hpos₁, hpos₂⟩, hworld', ⟨hr, hr'⟩, ⟨new, htrace₁, htrace₂⟩, hsame, hother⟩ :=
    store_congr (lt_size_of_fetch h₀) h₀ (lt_size_of_fetch hfetch) hfetch
      (h.kind_eq location hlocation) ((IR.Function.read_temp htemp).trans htcell) hworld hd
  refine ⟨d', ?_, ⟨hpos₁, by rw [hpos₂, hpos]⟩, by rw [hr, hr', hresult], hworld', ?_, ?_, ?_⟩
  · unfold run
    rw [Progress.run_succ_of_running he, Progress.run_one, hd']
  · rw [htrace₁, htrace₂, effects_append, effects_append, htrace, hc.trace]
  · intro id hid hsamecell
    apply hsame
    rw [hcells, Cells.put_of_ne, Cells.put_of_ne, hsamecell]
    · exact Nat.ne_of_lt (Nat.lt_of_lt_of_le hid ht)
    · exact Nat.ne_of_lt (Nat.lt_of_lt_of_le hid hu)
  · rw [hother u (Nat.ne_of_lt (Nat.lt_of_lt_of_le hlocation hu)).symm, hcells, Cells.put_self]

/-- In a run that returns, a store and a load of the same `location` take three steps to a state
which a fork, a store and an assignment reach as well. -/
theorem Agrees.leap_of_fork (hrt : rt.Lawful) (h₁ : f.fetch (c.pos + 1) = none)
    (h₂ : f.fetch (c.pos + 2) = some (.assign dest location))
    (hplace : f.isVar location = true ∨ (∃ n, f.kind location = .global n) ∨
      ∃ n, f.kind location = .contents n)
    (h₂' : f'.fetch (c.pos + 2) = some (.assign dest u))
    {n : Nat} {v : Value} {w : World} {trace : List Request}
    (hrun : f.run rt locals n c = .ended (.returned v w trace)) :
  ∃ d d', f.run rt locals 3 c = .running d ∧ f'.run rt locals 3 c' = .running d' ∧
    d.pos = c.pos + 3 ∧ f.Agrees f' d d'
  := by
  have htemp := ((wf'.fits _ _ h₀').def_temp u (by simp [Inst.defs])).2
  obtain ⟨d₁, n₁, hd₁, hn₁⟩ := exists_step_of_returns hrun (step_ne_returned h₀ (by rintro _ ⟨⟩))
  obtain ⟨e, he, ⟨hpos, hpos'⟩, hresult, hworld, htrace, hcells, hucell⟩ :=
    hc.fork_then_store h wf wf' hlocal' h₀ ht hu h₀' h₁' hd₁
  -- After the room the value is loaded; on the other side the second copy is taken.
  have hd₂ : f.step rt locals d₁ = .running d₁.next := by
    apply step_of_fetch_none
    · rw [hpos]
      exact Nat.lt_trans (Nat.lt_succ_self _) (lt_size_of_fetch h₂)
    · rw [hpos, h₁]
  have hload : f.fetch d₁.next.pos = some (.assign dest location) := by
    rw [← h₂]
    exact congrArg (fun p => f.fetch (p + 1)) hpos
  obtain ⟨d₂, n₂, hd₂', hn₂⟩ := exists_step_of_returns hn₁ (by rw [hd₂]; rintro ⟨⟩)
  cases hd₂.symm.trans hd₂'
  obtain ⟨d, -, hd, -⟩ := exists_step_of_returns hn₂ (step_ne_returned hload (by rintro _ ⟨⟩))
  obtain ⟨hdpos, hdcells, hdresult, hdworld, hdtrace⟩ := load_after_store hrt (lt_size_of_fetch h₀) h₀
    hplace hd₁ (show d₁.next.cells = d₁.cells from rfl) rfl hload hd
  have he' : f'.step rt locals e
      = .running { e.next with cells := e.cells.fill [(dest, f.read rt c src)] } := by
    apply step_of_fill
    · rw [hpos', h₂']
    · rw [Inst.action_assign_of_not_remote, IR.Function.read_temp htemp, hucell]
      obtain ⟨n, hn⟩ := isTemp_iff.mp htemp
      rw [hn]
      rfl
  refine ⟨d, { e.next with cells := e.cells.fill [(dest, f.read rt c src)] }, ?_, ?_, ?_, ?_⟩
  · unfold run
    rw [Progress.run_succ_of_running hd₁, Progress.run_succ_of_running hd₂, Progress.run_one, hd]
  · unfold run at he ⊢
    rw [Progress.run_succ_eq he, he']
  · rw [hdpos]
    exact congrArg (· + 2) hpos
  · refine ⟨?_, hresult.trans hdresult.symm, hworld.trans hdworld.symm, htrace.trans hdtrace.symm, ?_⟩
    · rw [hdpos]
      exact congrArg (· + 1) (hpos'.trans (congrArg (· + 1) hpos.symm))
    · intro id hid hcurrent
      rw [hdcells]
      change e.cells.put dest (f.read rt c src) id = d₁.cells.put dest (f.read rt c src) id
      by_cases hdest : id = dest
      · rw [hdest, Cells.put_self, Cells.put_self]
      · rw [Cells.put_of_ne _ _ hdest, Cells.put_of_ne _ _ hdest]
        apply hcells id hid (hc.cells id hid _)
        -- None of the three defines the operand, so it was of use before them.
        have hend : d.pos = c.pos + 2 + 1 := hdpos.trans (congrArg (· + 2) hpos)
        rw [hend] at hcurrent
        rcases hcurrent.back wf' (.next h₂' rfl) with hcurrent | ⟨i, hi, hmem⟩
        · rcases hcurrent.back wf' (.next h₁' rfl) with hcurrent | ⟨i, hi, hmem⟩
          · rcases hcurrent.back wf' (.next h₀' rfl) with hcurrent | ⟨i, hi, hmem⟩
            · exact hcurrent
            · rw [h₀'] at hi
              cases hi
              have hcopy : id = t ∨ id = u := by simpa [Inst.defs] using hmem
              rcases hcopy with rfl | rfl
              · exact absurd hid (Nat.not_lt_of_le ht)
              · exact absurd hid (Nat.not_lt_of_le hu)
          · rw [h₁'] at hi
            cases hi
            cases hmem
        · rw [h₂'] at hi
          cases hi
          exact absurd (List.mem_singleton.mp hmem) hdest

end Pair

section Forwarded

variable (hf : f.Checked) (hp : f.pending = [])
  (hpair : f.storeThenLoad? pos = some (location, src, dest))
include hf hp hpair

/-- Using the value that was just stored instead of loading it again preserves what a function does.
-/
theorem preservedBy_forwarded (hrt : rt.Lawful) :
  f.PreservedBy rt (f.forwarded pos location src dest)
  := by
  have wf := hf.wellFormed
  have hf' := Edit.checked (.forward hp hpair) hf
  have h := inPlace_forwarded wf hp hpair
  have wfr := wellFormed_roomToForward wf hp hpair
  obtain ⟨φ, hφ⟩ := compacts_roomToForward wf hp hpair
  obtain ⟨-, -, -, hplace⟩ := storeThenLoad?_eq_some hp hpair
  obtain ⟨h₀, h₁, h₂⟩ := fetch_roomToForward hp hpair
  apply (hφ.preservedBy_back fun l p => (wfr.labels l p).mp).trans
  -- Control never rests between the two ends of the pair, for no label is there.
  apply h.preservedBy_of_leaps (I := fun _ c => c.pos ≠ pos + 1 ∧ c.pos ≠ pos + 2)
  · intro locals scratch world
    exact ⟨(Nat.succ_ne_zero _).symm, (Nat.succ_ne_zero _).symm⟩
  · rintro locals c c' n v w trace ⟨hne₁, hne₂⟩ hc hrun
    by_cases hpos : c.pos = pos
    · right
      subst hpos
      have hview : ∀ p, (f.forwarded c.pos location src dest).fetch p = _ := fetch_forwarded wf hp hpair
      obtain ⟨d, d', hd, hd', hend, hagrees⟩ := hc.leap_of_fork h wfr hf'.wellFormed hf'.isLocal h₀
        (t := f.operands.size) (u := f.operands.size + 1) (Nat.le_refl _) (Nat.le_succ _)
        (by rw [hview, if_pos rfl]) (by rw [hview, if_neg (by omega), if_pos rfl]) hrt h₁ h₂ hplace
        (by rw [hview, if_neg (by omega), if_neg (by omega), if_pos rfl]) hrun
      exact ⟨2, d, 3, d', hd, hd', ⟨by omega, by omega⟩, hagrees⟩
    · have hsame : (f.forwarded pos location src dest).fetch c.pos
          = (f.roomToForward pos location).fetch c.pos := by
        rw [fetch_forwarded wf hp hpair, if_neg hpos, if_neg hne₁, if_neg hne₂]
      have hfollows : Follows _ _ rt locals c c' :=
        hc.follows_of_fetch_eq h wfr hf'.wellFormed hf'.isLocal hsame
      rcases hfollows.leap hrun with hend | ⟨d, d', hd, hd', hagrees⟩
      · exact .inl hend
      · right
        refine ⟨0, d, 1, d', (Progress.run_one c).trans hd, (Progress.run_one c').trans hd', ?_, hagrees⟩
        have hflow := flows_of_step hd
        change d.pos ≠ pos + 1 ∧ d.pos ≠ pos + 2
        generalize d.pos = q at hflow ⊢
        cases hflow with
        | next | skip => exact ⟨fun heq => hpos (Nat.succ.inj heq), fun heq => hne₁ (Nat.succ.inj heq)⟩
        | jump _ _ hlabel =>
          have hlabel := (wfr.labels _ _).mp hlabel
          constructor
          · intro heq
            rw [heq, h₁] at hlabel
            cases hlabel
          · intro heq
            rw [heq, h₂] at hlabel
            cases hlabel

end Forwarded

end StackCompiler.IR.Function
