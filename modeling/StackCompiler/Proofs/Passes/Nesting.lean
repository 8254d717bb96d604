import StackCompiler.Proofs.Passes.Paths
import StackCompiler.Proofs.Passes.Rounds

/-!
# Loops stay nested

The ranges of the jumps back of lowered code are nested or disjoint when those of the bytecode
are.  No pass adds a jump or moves one past another or past a label, so the ranges stay as they
are to each other.
-/

namespace StackCompiler.IR

namespace Function

variable {f f' : Function} {pos : Nat}

/-! ### Changes in place -/

/-- Loops stay nested when every jump was there before. -/
theorem InPlace.loopsNest (h : f.InPlace f') (hnest : f.LoopsNest)
    (hjumps : ∀ p i' l, f'.fetch p = some i' → i'.target? = some l →
      ∃ i, f.fetch p = some i ∧ i.target? = some l) :
  f'.LoopsNest
  := by
  have hloop : ∀ t j, f'.IsLoop t j → f.IsLoop t j := by
    rintro t j ⟨hlt, i', l, hi', hl, hlabel⟩
    obtain ⟨i, hi, hl⟩ := hjumps j i' l hi' hl
    exact ⟨hlt, i, l, hi, hl, (h.labels_eq l).symm.trans hlabel⟩
  exact fun t j t' j' ht ht' => hnest t j t' j' (hloop t j ht) (hloop t' j' ht')

/-- Loops stay nested when an instruction is replaced by one that does not jump. -/
theorem InPlace.loopsNest_of_replaced (h : f.InPlace f') (hnest : f.LoopsNest) {new : Inst}
    (hview : ∀ p, f'.fetch p = if p = pos then some new else f.fetch p) (hnew : new.target? = none) :
  f'.LoopsNest
  := by
  apply h.loopsNest hnest
  intro p i' l hi' hl
  rw [hview] at hi'
  split at hi'
  · cases hi'
    rw [hnew] at hl
    cases hl
  · exact ⟨i', hi', hl⟩

/-- Functions with the same code have nested loops alike. -/
theorem SameCode.loopsNest (h : f.SameCode f') (hnest : f.LoopsNest) :
  f'.LoopsNest
  := by
  apply h.inPlace.loopsNest hnest
  intro p i l hi hl
  rw [h.fetch_eq] at hi
  exact ⟨i, hi, hl⟩

/-- Loops stay nested when an instruction that is no label is removed. -/
theorem loopsNest_remove (hnest : f.LoopsNest) {old : Inst} (hfetch : f.fetch pos = some old)
    (hold : ∀ l, old ≠ .label l) :
  (f.remove pos).LoopsNest
  := by
  apply (inPlace_remove hfetch hold).loopsNest hnest
  exact fun p i l hi hl => ⟨i, (fetch_of_fetch_remove hi).1, hl⟩

/-- Loops stay nested when a jump becomes a short one. -/
theorem loopsNest_shortened (hnest : f.LoopsNest) {l : Label} (hfetch : f.fetch pos = some (.jump l)) :
  (f.replace pos (.shortJump l)).LoopsNest
  := by
  have h : f.InPlace (f.replace pos (.shortJump l)) :=
    inPlace_replace hfetch (fun _ => nofun) fun _ => nofun
  apply h.loopsNest hnest
  intro p i' l' hi' hl
  rw [fetch_replace hfetch] at hi'
  split at hi'
  · rename_i hp
    cases hi'
    cases hl
    exact ⟨.jump l, hp ▸ hfetch, rfl⟩
  · exact ⟨i', hi', hl⟩

/-! ### Changes that move code -/

namespace Compacts

variable {φ : Nat → Nat}

/-- The loops of compacted code are those of the code, moved. -/
theorem isLoop_iff (h : f.Compacts f' φ)
    (hlabels : ∀ l p, f.labels.at? l = some p → f.fetch p = some (.label l)) {T J : Nat} :
  f'.IsLoop T J ↔ ∃ t j, f.IsLoop t j ∧ φ t = T ∧ φ j = J
  := by
  constructor
  · rintro ⟨hlt, i, l, hi, hl, hlabel⟩
    obtain ⟨j, rfl, hj⟩ := h.exists_of_fetch hi
    obtain ⟨t, ht, rfl⟩ := h.labels' l T hlabel
    exact ⟨t, j, ⟨(h.lt_iff (hlabels l t ht) hj).mp hlt, i, l, hj, hl, ht⟩, rfl, rfl⟩
  · rintro ⟨t, j, ⟨hlt, i, l, hi, hl, hlabel⟩, rfl, rfl⟩
    exact ⟨(h.lt_iff (hlabels l t hlabel) hi).mpr hlt, i, l, (h.keep j i hi).2, hl, h.labels l t hlabel⟩

/-- Compaction keeps whether two ranges are nested or disjoint. -/
theorem nested_iff (h : f.Compacts f' φ) {t j t' j' : Nat} {a b a' b' : Inst}
    (ht : f.fetch t = some a) (hj : f.fetch j = some b) (ht' : f.fetch t' = some a')
    (hj' : f.fetch j' = some b') :
  Nested (φ t) (φ j) (φ t') (φ j') ↔ Nested t j t' j'
  := by
  unfold Nested
  simp only [← Nat.not_lt, h.lt_iff ht' ht, h.lt_iff hj hj', h.lt_iff ht ht', h.lt_iff hj' hj,
    h.lt_iff hj ht', h.lt_iff hj' ht]

/-- Loops are nested with the removed positions when they are without them. -/
theorem loopsNest_iff (h : f.Compacts f' φ)
    (hlabels : ∀ l p, f.labels.at? l = some p → f.fetch p = some (.label l)) :
  f'.LoopsNest ↔ f.LoopsNest
  := by
  have hends : ∀ {t j}, f.IsLoop t j → (∃ a, f.fetch t = some a) ∧ ∃ b, f.fetch j = some b :=
    fun ⟨_, i, l, hi, _, hlabel⟩ => ⟨⟨_, hlabels l _ hlabel⟩, i, hi⟩
  constructor
  · intro hnest t j t' j' hloop hloop'
    obtain ⟨⟨a, ha⟩, b, hb⟩ := hends hloop
    obtain ⟨⟨a', ha'⟩, b', hb'⟩ := hends hloop'
    rw [← h.nested_iff ha hb ha' hb']
    apply hnest
    · exact (h.isLoop_iff hlabels).mpr ⟨t, j, hloop, rfl, rfl⟩
    · exact (h.isLoop_iff hlabels).mpr ⟨t', j', hloop', rfl, rfl⟩
  · intro hnest T J T' J' hloop hloop'
    obtain ⟨t, j, hback, rfl, rfl⟩ := (h.isLoop_iff hlabels).mp hloop
    obtain ⟨t', j', hback', rfl, rfl⟩ := (h.isLoop_iff hlabels).mp hloop'
    obtain ⟨⟨a, ha⟩, b, hb⟩ := hends hback
    obtain ⟨⟨a', ha'⟩, b', hb'⟩ := hends hback'
    rw [h.nested_iff ha hb ha' hb']
    exact hnest t j t' j' hback hback'

end Compacts

/-- Loops stay nested when a stored value is forwarded to the load that follows. -/
theorem loopsNest_forwarded (wf : f.WellFormed) (hnest : f.LoopsNest) (hp : f.pending = [])
    {location src dest : OperandId} (hpair : f.storeThenLoad? pos = some (location, src, dest)) :
  (f.forwarded pos location src dest).LoopsNest
  := by
  have wfr := wellFormed_roomToForward wf hp hpair
  obtain ⟨φ, hφ⟩ := compacts_roomToForward wf hp hpair
  have hroom := (hφ.loopsNest_iff fun l p => (wfr.labels l p).mp).mp hnest
  apply (inPlace_forwarded wf hp hpair).loopsNest hroom
  intro p i' l hi' hl
  rw [fetch_forwarded wf hp hpair] at hi'
  split at hi'
  · cases hi'
    cases hl
  · split at hi'
    · cases hi'
      cases hl
    · split at hi'
      · cases hi'
        cases hl
      · exact ⟨i', hi', hl⟩

/-- An entry load at the top is a change in place once there is room for it. -/
theorem inPlace_loaded (hp : f.pending = []) (x : OperandId) :
  (f.withRoom 0 (.forceLoad x)).InPlace (f.inserted 0 (.forceLoad x))
  := by
  refine ⟨rfl, fun _ => rfl, rfl, Nat.le_refl _, fun _ _ => rfl, ?_, ?_, ?_⟩
  · intro id hid
    rw [Bool.eq_false_iff]
    intro hvar
    exact Nat.not_lt_of_le hid (isVar_lt hvar)
  · exact fun hn => hn.congr rfl fun _ => rfl
  · exact label_withRoom_iff hp (Nat.zero_le _) fun _ => nofun

/-- Loops stay nested when an entry load is put at the top. -/
theorem loopsNest_loaded (wf : f.WellFormed) (hnest : f.LoopsNest) (hp : f.pending = []) (x : OperandId) :
  (f.inserted 0 (.forceLoad x)).LoopsNest
  := by
  have hlabel : ∀ l, Inst.forceLoad x ≠ .label l := fun _ => nofun
  have hφ := compacts_withRoom hp (Nat.zero_le _) hlabel wf.labels
  have hlabels := at?_labels_withRoom hp (Nat.zero_le _) hlabel wf.labels
  have hroom := (hφ.loopsNest_iff fun l p => (hlabels l p).mp).mp hnest
  apply (inPlace_loaded hp x).loopsNest hroom
  intro p i l hi hl
  cases p with
  | zero =>
    rw [fetch_loaded_zero hp] at hi
    cases hi
    cases hl
  | succ p =>
    refine ⟨i, ?_, hl⟩
    rw [fetch_withRoom hp (Nat.zero_le _), if_neg (Nat.not_lt_zero _), if_neg (Nat.succ_ne_zero p)]
    rwa [fetch_loaded_succ hp] at hi

/-- Loops stay nested when entry loads are put at the top. -/
theorem loopsNest_withLoads (wf : f.WellFormed) (hnest : f.LoopsNest) (hp : f.pending = [])
    {xs : List OperandId} (hxs : ∀ x ∈ xs, f.isVar x = true) :
  (f.withLoads xs).LoopsNest
  := by
  induction xs with
  | nil => exact hnest
  | cons x xs ih =>
    have hxs' : ∀ y ∈ xs, f.isVar y = true := fun y hy => hxs y (List.mem_cons_of_mem _ hy)
    exact loopsNest_loaded (wellFormed_withLoads wf hp hxs') (ih hxs') ((pending_withLoads f xs).trans hp) x

end Function

open IR.Function

/-- Every change of a round keeps loops nested. -/
theorem Edit.loopsNest {f f' : Function} (h : Edit f f') (wf : f.WellFormed) (hnest : f.LoopsNest) :
  f'.LoopsNest
  := by
  cases h with
  | annotate same => exact same.loopsNest hnest
  | fold hfetch hresult =>
    have hlabel := (defs_of_foldInst? hresult).2.2
    exact (inPlace_foldedTo hfetch hlabel).loopsNest_of_replaced hnest (fetch_foldedTo hfetch) rfl
  | specialize hfetch =>
    exact (inPlace_specialized hfetch).loopsNest_of_replaced hnest (fetch_specialized hfetch) rfl
  | rename hfetch htemp =>
    apply (inPlace_renamed ..).loopsNest hnest
    intro p i' l hi' hl
    obtain ⟨i, hi, rfl⟩ := fetch_renamed_eq_some.mp hi'
    exact ⟨i, hi, (Inst.target?_mapUses _ i).symm.trans hl⟩
  | erase hfetch hpure =>
    apply loopsNest_remove hnest hfetch
    rintro l rfl
    cases hpure
  | eraseAssertion hfetch => exact loopsNest_remove hnest hfetch fun _ => nofun
  | narrow hfetch =>
    obtain ⟨a, b, hold, -, hplace⟩ := exists_fork hfetch
    exact hplace.loopsNest_of_replaced hnest (fetch_replace hold _) rfl
  | eraseStore hfetch => exact loopsNest_remove hnest hfetch fun _ => nofun
  | forward hpending hpair => exact loopsNest_forwarded wf hnest hpending hpair
  | compact =>
    obtain ⟨φ, hφ⟩ := compacts_compact wf.labels
    exact (hφ.loopsNest_iff fun l p => (wf.labels l p).mp).mpr hnest

/-! ### Lowered code -/

namespace Lowering

variable {f : Bytecode.Function} {g : Function}

/-- A jump is emitted by an operation that jumps, after everything else. -/
theorem Emission.jump_last {s s' : Lowering} {operation : Operation} {operand dest dest' : OperandId}
    {insts : List Inst} (h : Emission s operation s' operand dest dest' insts) {j : Nat} {inst : Inst}
    {l : Label} (hj : insts[j]? = some inst) (hl : inst.target? = some l) :
  j + 1 = insts.length ∧ ∃ op, operation.mark? = some (op, l) ∧ (op = .goto ∨ op = .branch)
  := by
  have hmem := List.mem_of_getElem? hj
  have hemits := h.emits
  generalize s'.stack = st' at hemits
  generalize s.stack = st at hemits
  cases hemits with
  | binary =>
    rcases List.mem_append.mp hmem with hmem | hmem
    · obtain ⟨p, -, rfl⟩ := List.mem_map.mp hmem
      cases hl
    · cases List.mem_singleton.mp hmem
      cases hl
  | goto =>
    cases List.mem_singleton.mp hmem
    cases hl
    exact ⟨by simpa using (List.getElem?_eq_some_iff.mp hj).1, _, rfl, .inl rfl⟩
  | branch =>
    rcases j with _ | _ | j
    · cases hj
      cases hl
    · cases hj
      cases hl
      exact ⟨rfl, _, rfl, .inr rfl⟩
    · cases hj
  | swap | pop => cases hmem
  | _ =>
    simp only [List.mem_cons, List.not_mem_nil, or_false] at hmem
    rcases hmem with rfl | rfl <;> cases hl

/-- A loop of lowered code is that of a jump back of the bytecode. -/
theorem exists_isLoop (h : lower f = .ok g) (he : f.EmptyAtJumps) {t j : Nat} (hloop : g.IsLoop t j) :
  ∃ a b s s', f.IsLoop a b ∧ upTo f a = .ok s ∧ s.func.size = t ∧ upTo f (b + 1) = .ok s' ∧
    s'.func.size = j + 1
  := by
  obtain ⟨hlt, inst, l, hfetch, hl, hlabel⟩ := hloop
  obtain ⟨a, s, ha, hale, hs, hsize, -⟩ := exists_target h he hlabel
  obtain ⟨u, hu, rfl, -⟩ := lower_eq_ok h
  obtain ⟨b, hb, hc⟩ := exists_covers (Nat.le_refl _) hu (lt_size_of_fetch hfetch)
  obtain ⟨i, r, r', operation, operand, dest, dest', insts, hi, hr, hr', hle, hjlt, ho, hem, hj⟩ :=
    emission_of_covers h hb hc hfetch
  obtain ⟨hlast, op, hmark, hop⟩ := hem.jump_last hj hl
  obtain ⟨rfl, rfl⟩ := Operation.op_of_mark ho hmark
  have hend : r'.func.size = j + 1 := by
    rw [hem.extend.size_eq]
    omega
  refine ⟨a, b, s, r', ⟨?_, i, hi, hop, ha⟩, hs, hsize, hr', hend⟩
  -- The label is emitted before the jump, so it is marked before it.
  by_contra hge
  have hne : a ≠ b := by
    rintro rfl
    unfold Bytecode.Function.labelIndex at ha
    obtain ⟨_, hmarked, -⟩ := List.findIdx?_eq_some_iff_getElem.mp ha
    rw [(List.getElem?_eq_some_iff.mp hi).2] at hmarked
    rcases hop with hop | hop <;> simp [hop] at hmarked
  have hafter := size_mono (Nat.succ_le_of_lt (Nat.lt_of_le_of_ne (Nat.le_of_not_lt hge) hne.symm))
    hale hr' hs
  omega

/-- Loops that nest are lowered to loops that nest. -/
theorem loopsNest_lower (h : lower f = .ok g) (he : f.EmptyAtJumps) (hnest : f.LoopsNest) :
  g.LoopsNest
  := by
  intro t j t' j' hloop hloop'
  obtain ⟨a, b, s, r, hab, hs, rfl, hr, hj⟩ := exists_isLoop h he hloop
  obtain ⟨a', b', s', r', hab', hs', rfl, hr', hj'⟩ := exists_isLoop h he hloop'
  have hbound : ∀ {a b}, f.IsLoop a b → a < b ∧ b < f.instructions.length :=
    fun ⟨hlt, i, hi, _⟩ => ⟨hlt, (List.getElem?_eq_some_iff.mp hi).1⟩
  obtain ⟨hlt, hb⟩ := hbound hab
  obtain ⟨hlt', hb'⟩ := hbound hab'
  rcases hnest a b a' b' hab hab' with ⟨h₁, h₂⟩ | ⟨h₁, h₂⟩ | h₁ | h₁
  · have htop := size_mono h₁ (by omega) hs hs'
    have hend := size_mono (Nat.succ_le_succ h₂) hb hr' hr
    exact .inl ⟨htop, by omega⟩
  · have htop := size_mono h₁ (by omega) hs' hs
    have hend := size_mono (Nat.succ_le_succ h₂) hb' hr hr'
    exact .inr (.inl ⟨htop, by omega⟩)
  · have hapart := size_mono (Nat.succ_le_of_lt h₁) (by omega) hr hs'
    exact .inr (.inr (.inl (by omega)))
  · have hapart := size_mono (Nat.succ_le_of_lt h₁) (by omega) hr' hs
    exact .inr (.inr (.inr (by omega)))

end Lowering

end StackCompiler.IR
