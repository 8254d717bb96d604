import Mathlib.Logic.Relation
import StackCompiler.Proofs.Passes.EditStructure

/-!
# The sweep as a sequence of changes

`Obsolete f marks n` is what the sweep goes by: a marked temp is read only by assertions and by
copies into marked temps, and neither a read nor a definition of it is left from position
`n` on.  Going backwards from the last position the sweep keeps this so, each removal is a
change that `Edit` allows, and at position 0 nothing of a marked temp is left.
-/

namespace StackCompiler.IR

/-- A sequence of changes. -/
abbrev Edits : Function → Function → Prop := Relation.ReflTransGen Edit

/-- Every sequence of changes leaves code well formed. -/
theorem Edits.wellFormed {f f' : Function} (h : Edits f f') (wf : f.WellFormed) :
  f'.WellFormed
  := by
  induction h with
  | refl => exact wf
  | tail _ hstep ih => exact hstep.wellFormed ih

namespace Function

variable {f f' : Function} {marks : IdSet} {n pos : Nat}

/-- Marked temps are not needed, and nothing of them is left from a position on. -/
structure Obsolete (f : Function) (marks : IdSet) (n : Nat) : Prop where
  wellFormed : f.WellFormed
  linear : f.Linear marks
  temp : ∀ t ∈ marks, t < f.operands.size ∧ f.isTemp t = true
  reader : ∀ t ∈ marks, ∀ p i, f.fetch p = some i → t ∈ i.uses → p < n ∧ i.IsLight marks t
  definition : ∀ t ∈ marks, ∀ p, f.DefinesAt p t → p < n

/-- Code without marks. -/
theorem obsolete_nil (wf : f.WellFormed) (h : f.Linear []) (n : Nat) :
  f.Obsolete [] n
  := ⟨wf, h, nofun, nofun, nofun⟩

/-- Marks that are right up to a position are right up to another if no instruction stands in
between. -/
theorem Obsolete.mono {m : Nat} (h : f.Obsolete marks n) (hm : ∀ p i, f.fetch p = some i → p < n → p < m) :
  f.Obsolete marks m
  := by
  refine ⟨h.wellFormed, h.linear, h.temp, ?_, ?_⟩
  · intro t ht p i hi hu
    obtain ⟨hlt, hlight⟩ := h.reader t ht p i hi hu
    exact ⟨hm p i hi hlt, hlight⟩
  · intro t ht p hd
    have hlt := h.definition t ht p hd
    obtain ⟨i, hi, -⟩ := hd
    exact hm p i hi hlt

/-- Marks stay right when every read of a temp stood at the same position before, in an
instruction that needs it as much, or is the only one of a new temp. -/
theorem Obsolete.change (h : f.Obsolete marks n) (hplace : f.InPlace f') (wf : f'.WellFormed)
    (honce : ∀ p i', f'.fetch p = some i' → i'.uses.Nodup)
    (hread : ∀ p i' t, f'.fetch p = some i' → t ∈ i'.uses → f'.isTemp t = true →
      (∃ i, f.fetch p = some i ∧ t ∈ i.uses ∧ (i'.IsLight marks t ↔ i.IsLight marks t)) ∨
        f.operands.size ≤ t ∧ ∀ q, f'.ReadsAt q t → q = p)
    (hdefine : ∀ p, ∀ t ∈ marks, f'.DefinesAt p t → f.DefinesAt p t) :
  f'.Obsolete marks n
  := by
  refine ⟨wf, ⟨?_, honce⟩, ?_, ?_, ?_⟩
  · intro p q i' t hi' hu htemp hlight hq
    rcases hread p i' t hi' hu htemp with ⟨i, hi, hui, hiff⟩ | ⟨-, honly⟩
    · have hlt := (h.wellFormed.fits p i hi).use_lt t hui
      obtain ⟨j', hj', huj'⟩ := hq
      rcases hread q j' t hj' huj' htemp with ⟨j, hj, huj, -⟩ | ⟨hge, -⟩
      · exact h.linear.last p q i t hi hui (by rwa [← hplace.isTemp_eq hlt]) (hiff.not.mp hlight)
          ⟨j, hj, huj⟩
      · exact absurd hlt (Nat.not_lt.mpr hge)
    · exact Nat.le_of_eq (honly q hq)
  · intro t ht
    obtain ⟨hlt, htemp⟩ := h.temp t ht
    exact ⟨Nat.lt_of_lt_of_le hlt hplace.operands_le, (hplace.isTemp_eq hlt).trans htemp⟩
  · intro t ht p i' hi' hu
    obtain ⟨hlt, htemp⟩ := h.temp t ht
    rcases hread p i' t hi' hu ((hplace.isTemp_eq hlt).trans htemp) with ⟨i, hi, hui, hiff⟩ | ⟨hge, -⟩
    · obtain ⟨hpn, hlight⟩ := h.reader t ht p i hi hui
      exact ⟨hpn, hiff.mpr hlight⟩
    · exact absurd hlt (Nat.not_lt.mpr hge)
  · exact fun t ht p hd => h.definition t ht p (hdefine p t ht hd)

/-- A function all of whose instructions stood there before keeps its marks. -/
theorem Obsolete.of_fetch (h : f.Obsolete marks n) (hplace : f.InPlace f') (wf : f'.WellFormed)
    (hview : ∀ p i, f'.fetch p = some i → f.fetch p = some i) :
  f'.Obsolete marks n
  := by
  apply h.change hplace wf
  · exact fun p i hi => h.linear.once p i (hview p i hi)
  · exact fun p i t hi hu _ => .inl ⟨i, hview p i hi, hu, .rfl⟩
  · exact fun p t _ ⟨i, hi, hd⟩ => ⟨i, hview p i hi, hd⟩

/-- Removing an instruction keeps marks, and takes the instruction from the rest. -/
theorem Obsolete.remove (h : f.Obsolete marks (pos + 1)) (hedit : Edit f (f.remove pos)) {inst : Inst}
    (hfetch : f.fetch pos = some inst) (hinst : ∀ l, inst ≠ .label l) :
  (f.remove pos).Obsolete marks pos
  := by
  have h' := h.of_fetch (inPlace_remove hfetch hinst) (hedit.wellFormed h.wellFormed)
    fun p i hi => (fetch_of_fetch_remove hi).1
  refine h'.mono ?_
  intro p i hi hlt
  have := (fetch_of_fetch_remove hi).2
  omega

theorem subset_add (t : OperandId) (marks : IdSet) :
  marks ⊆ IdSet.add t marks
  := fun _ h => (IdSet.mem_add ..).mpr (.inr h)

/-- Once the consumer of a temp is gone, the temp is not needed. -/
theorem Obsolete.mark {marks' : IdSet} {m : Nat} {t : OperandId} {inst : Inst}
    (h' : f'.Obsolete marks' m) (h : f.Obsolete marks n) (hsub : marks ⊆ marks')
    (hplace : f.InPlace f') (hfetch : f.fetch pos = some inst) (ht : t ∈ inst.uses)
    (htemp : f.isTemp t = true) (hlight : ¬ inst.IsLight marks t) (hm : pos ≤ m)
    (hview : ∀ p i, f'.fetch p = some i → f.fetch p = some i ∧ p ≠ pos ∨
      p = pos ∧ t ∉ i.uses ∧ t ∉ i.defs) :
  f'.Obsolete (IdSet.add t marks') m
  := by
  have hread : f.ReadsAt pos t := ⟨inst, hfetch, ht⟩
  have hlt := (h.wellFormed.fits pos inst hfetch).use_lt t ht
  refine ⟨h'.wellFormed, h'.linear.mono (subset_add t marks'), ?_, ?_, ?_⟩
  · intro u hu
    rcases (IdSet.mem_add ..).mp hu with rfl | hu
    · exact ⟨Nat.lt_of_lt_of_le hlt hplace.operands_le, (hplace.isTemp_eq hlt).trans htemp⟩
    · exact h'.temp u hu
  · intro u hu p i hi huse
    rcases (IdSet.mem_add ..).mp hu with rfl | hu
    · rcases hview p i hi with ⟨hi₀, hp⟩ | ⟨-, hnot, -⟩
      · -- The consumer comes after every other read, and there is no other consumer.
        have hle := h.linear.last pos p inst u hfetch ht htemp hlight ⟨i, hi₀, huse⟩
        refine ⟨by omega, ?_⟩
        by_contra hne
        have hge := h.linear.last p pos i u hi₀ huse htemp
          (fun hl => hne ((hl.mono hsub).mono (subset_add u marks'))) hread
        omega
      · exact absurd huse hnot
    · obtain ⟨hp, hl⟩ := h'.reader u hu p i hi huse
      exact ⟨hp, hl.mono (subset_add t marks')⟩
  · intro u hu p hd
    rcases (IdSet.mem_add ..).mp hu with rfl | hu
    · obtain ⟨i, hi, hdef⟩ := hd
      rcases hview p i hi with ⟨hi₀, -⟩ | ⟨-, -, hnot⟩
      · have := h.wellFormed.lt_of_reads ⟨i, hi₀, hdef⟩ hread htemp
        omega
      · exact absurd hdef hnot
    · exact h'.definition u hu p hd

/-- An instruction that has nothing to do with marked temps stays. -/
theorem Obsolete.skip (h : f.Obsolete marks (pos + 1)) {inst : Inst} (hfetch : f.fetch pos = some inst)
    (hlight : ∀ t ∈ marks, ¬ inst.IsLight marks t) (hdefs : ∀ t ∈ marks, t ∉ inst.defs) :
  f.Obsolete marks pos
  := by
  refine ⟨h.wellFormed, h.linear, h.temp, ?_, ?_⟩
  · intro t ht p i hi hu
    obtain ⟨hlt, hl⟩ := h.reader t ht p i hi hu
    refine ⟨Nat.lt_of_le_of_ne (Nat.le_of_lt_succ hlt) ?_, hl⟩
    rintro rfl
    rw [hfetch] at hi
    cases hi
    exact hlight t ht hl
  · intro t ht p hd
    refine Nat.lt_of_le_of_ne (Nat.le_of_lt_succ (h.definition t ht p hd)) ?_
    rintro rfl
    obtain ⟨i, hi, hdef⟩ := hd
    rw [hfetch] at hi
    cases hi
    exact hdefs t ht hdef

/-- What is marked and defined at the last position that is left is not read. -/
theorem Obsolete.unread (h : f.Obsolete marks (pos + 1)) {t : OperandId} (ht : t ∈ marks)
    (hd : f.DefinesAt pos t) :
  f.Unread t
  := by
  intro p hp
  have := h.wellFormed.lt_of_reads hd hp (h.temp t ht).2
  obtain ⟨i, hi, hu⟩ := hp
  have := (h.reader t ht p i hi hu).1
  omega

/-- A marked temp that is checked is not computed with. -/
theorem Obsolete.idle (h : f.Obsolete marks n) {t : OperandId} (ht : t ∈ marks) :
  f.Idle t
  := by
  intro p i hi hu
  rcases (h.reader t ht p i hi hu).2 with hl | ⟨d, -, hd⟩
  · exact .inl hl
  · exact .inr ⟨d, hd⟩

/-- A fork of which one side is marked becomes an assignment of the other. -/
theorem Obsolete.narrow (h : f.Obsolete marks (pos + 1)) {src kept dropped : OperandId}
    (hfetch : f.fetch pos = some (.fork src kept dropped) ∨ f.fetch pos = some (.fork src dropped kept))
    (hkept : kept ∉ marks) (hedit : Edit f (f.replace pos (.assign kept src))) :
  (f.replace pos (.assign kept src)).Obsolete marks pos
  := by
  obtain ⟨a, b, hold, -, hplace⟩ := exists_fork hfetch
  have hfork : ∀ t, ¬ (Inst.fork src a b).IsLight marks t := by
    rintro t (⟨k, hk⟩ | ⟨d, -, hd⟩)
    · cases hk
    · cases hd
  have hview : ∀ p, (f.replace pos (.assign kept src)).fetch p = _ := fetch_replace hold _
  have h' : (f.replace pos (.assign kept src)).Obsolete marks (pos + 1) := by
    refine h.change hplace (hedit.wellFormed h.wellFormed) ?_ ?_ ?_
    · intro p i hi
      rw [hview] at hi
      split at hi
      · cases hi
        simp [Inst.uses]
      · exact h.linear.once p i hi
    · intro p i t hi hu _
      left
      rw [hview] at hi
      split at hi
      · rename_i hp
        cases hi
        refine ⟨_, (congrArg _ hp).trans hold, hu, iff_of_false ?_ (hfork t)⟩
        rintro (⟨k, hk⟩ | ⟨d, hd, hl⟩)
        · cases hk
        · cases hl
          exact hkept hd
      · exact ⟨i, hi, hu, .rfl⟩
    · rintro p t ht ⟨i, hi, hd⟩
      rw [hview] at hi
      split at hi
      · cases hi
        rw [List.mem_singleton.mp hd] at ht
        exact absurd ht hkept
      · exact ⟨i, hi, hd⟩
  refine h'.skip ((hview pos).trans (if_pos rfl)) ?_ ?_
  · rintro t ht (⟨k, hk⟩ | ⟨d, hd, hl⟩)
    · cases hk
    · cases hl
      exact hkept hd
  · rintro t ht hd
    rw [List.mem_singleton.mp hd] at ht
    exact hkept ht

/-- When nothing of marked temps is left the marks can go. -/
theorem Obsolete.clear (h : f.Obsolete marks 0) (n : Nat) :
  f.Obsolete [] n
  := by
  apply obsolete_nil h.wellFormed
  refine ⟨?_, h.linear.once⟩
  intro p q i t hi hu htemp hlight hq
  refine h.linear.last p q i t hi hu htemp ?_ hq
  rintro (hl | ⟨d, hd, rfl⟩)
  · exact hlight (.inl hl)
  · exact absurd (h.definition d hd p ⟨_, hi, List.mem_singleton.mpr rfl⟩) (Nat.not_lt_zero _)

/-- Marks where there is room for an instruction. -/
theorem Compacts.obsolete {φ : Nat → Nat}
    (hφ : f.Compacts f' φ) (wf : f.WellFormed) (h : f'.Obsolete marks f'.size) :
  f.Obsolete marks f.size
  := by
  refine ⟨wf, (hφ.linear_iff marks).mp h.linear, ?_, ?_, ?_⟩
  · intro t ht
    rw [← hφ.operands, ← isTemp_congr (hφ.kind_eq t)]
    exact h.temp t ht
  · intro t ht p i hi hu
    exact ⟨lt_size_of_fetch hi, (h.reader t ht _ i (hφ.keep p i hi).2 hu).2⟩
  · exact fun t _ p ⟨i, hi, _⟩ => lt_size_of_fetch hi

/-- Without marks nothing is obsolete in compacted code, and nothing is marked for removal there.
-/
theorem Obsolete.compact (h : f.Obsolete [] n) :
  f.compact.2.Obsolete [] f.compact.2.size ∧ f.compact.2.pending = []
  := by
  obtain ⟨φ, hφ⟩ := compacts_compact h.wellFormed.labels
  refine ⟨obsolete_nil (hφ.wellFormed h.wellFormed) ((hφ.linear_iff []).mpr h.linear) _, ?_⟩
  unfold IR.Function.compact
  split
  · rename_i hp
    exact List.isEmpty_iff.mp hp
  · rfl

end Function

/-! ### The sweep -/

namespace State

variable {s : State} {pos : Nat} {inst : Inst}

theorem isObsolete_iff {id : OperandId} :
  s.isObsolete id = true ↔ id ∈ s.ctx.obsolete
  := by
  simp [isObsolete]

/-- What sweeping an instruction leaves. -/
structure SweptTo (s s' : State) (pos : Nat) : Prop where
  edits : Edits s.func s'.func
  obsolete : s'.func.Obsolete s'.ctx.obsolete pos
  fetch_eq : ∀ p, p ≠ pos → s'.func.fetch p = s.func.fetch p

@[simp]
theorem func_markAll (s : State) (ids : List OperandId) :
  (s.markAll ids).func = s.func
  := by
  unfold markAll
  induction ids generalizing s with
  | nil => rfl
  | cons t ids ih => exact ih (s.mark t)

/-- Once an operation is gone, the temps that it read are not needed. -/
theorem obsolete_markAll {f : Function} {marks : IdSet} {m n : Nat} (h : f.Obsolete marks n)
    (hfetch : f.fetch pos = some inst) (hassert : ∀ kind t, inst ≠ .assertion kind t) (hm : pos ≤ m)
    (ids : List OperandId) (hids : ∀ t ∈ ids, t ∈ inst.uses ∧ ∀ d, inst ≠ .assign d t)
    (h' : s.func.Obsolete s.ctx.obsolete m) (hsub : marks ⊆ s.ctx.obsolete)
    (hplace : f.InPlace s.func)
    (hview : ∀ p i, s.func.fetch p = some i → f.fetch p = some i ∧ p ≠ pos ∨
      p = pos ∧ ∀ t ∈ ids, t ∉ i.uses ∧ t ∉ i.defs) :
  s.func.Obsolete (s.markAll ids).ctx.obsolete m
  := by
  induction ids generalizing s with
  | nil => exact h'
  | cons t ids ih =>
    obtain ⟨ht, hassign⟩ := hids t List.mem_cons_self
    refine ih (s := s.mark t) (fun u hu => hids u (List.mem_cons_of_mem _ hu)) ?_
      (fun u hu => Function.subset_add t _ (hsub hu)) hplace ?_
    · refine h'.mark h hsub hplace hfetch ht (h.wellFormed.isTemp_of_uses hfetch ht hassign) ?_ hm ?_
      · rintro (⟨k, hk⟩ | ⟨d, -, hd⟩)
        · exact hassert k t hk
        · exact hassign d hd
      · exact fun p i hi => (hview p i hi).imp_right fun hp => ⟨hp.1, hp.2 t List.mem_cons_self⟩
    · exact fun p i hi => (hview p i hi).imp_right fun hp =>
        ⟨hp.1, fun u hu => hp.2 u (List.mem_cons_of_mem _ hu)⟩

/-- Removing a definition of marked temps sweeps its position, and any temps `ids` that it read, but
did not copy, may be marked then. -/
theorem sweptTo_remove (h : s.func.Obsolete s.ctx.obsolete (pos + 1))
    (hfetch : s.func.fetch pos = some inst) (hpure : inst.isPure = true)
    (hdefs : ∀ t ∈ inst.defs, t ∈ s.ctx.obsolete) (ids : List OperandId)
    (hids : ∀ t ∈ ids, t ∈ inst.uses ∧ ∀ d, inst ≠ .assign d t) :
  s.SweptTo ((s.remove pos).markAll ids) pos
  := by
  have hlabel : ∀ l, inst ≠ .label l := by
    rintro l rfl
    cases hpure
  have hedit : Edit s.func (s.func.remove pos) :=
    .erase hfetch hpure fun t ht => h.unread (hdefs t ht) ⟨inst, hfetch, ht⟩
  refine ⟨?_, ?_, ?_⟩
  · rw [func_markAll]
    exact .single hedit
  · rw [func_markAll]
    refine obsolete_markAll (s := s.remove pos) h hfetch ?_ (Nat.le_refl _) ids hids
      (h.remove hedit hfetch hlabel) (fun _ hu => hu) (Function.inPlace_remove hfetch hlabel) ?_
    · rintro kind t rfl
      cases hpure
    · exact fun p i hi => .inl (Function.fetch_of_fetch_remove hi)
  · intro p hp
    rw [func_markAll]
    exact (Function.fetch_remove ..).trans (if_neg hp)

/-- An instruction that has nothing to do with marked temps stays. -/
theorem sweptTo_skip (h : s.func.Obsolete s.ctx.obsolete (pos + 1))
    (hfetch : s.func.fetch pos = some inst)
    (hlight : ∀ t ∈ s.ctx.obsolete, ¬ inst.IsLight s.ctx.obsolete t)
    (hdefs : ∀ t ∈ s.ctx.obsolete, t ∉ inst.defs) :
  s.SweptTo s pos
  := ⟨.refl, h.skip hfetch hlight hdefs, fun _ _ => rfl⟩

/-- A fork of which one side is marked. -/
theorem sweptTo_narrow (h : s.func.Obsolete s.ctx.obsolete (pos + 1)) {src kept dropped : OperandId}
    (hfetch : s.func.fetch pos = some (.fork src kept dropped) ∨
      s.func.fetch pos = some (.fork src dropped kept))
    (hkept : kept ∉ s.ctx.obsolete) (hdropped : dropped ∈ s.ctx.obsolete) :
  s.SweptTo (s.replace pos (.assign kept src)) pos
  := by
  have hdef : s.func.DefinesAt pos dropped := by
    rcases hfetch with hfetch | hfetch
    · exact ⟨_, hfetch, List.mem_cons_of_mem _ (List.mem_singleton.mpr rfl)⟩
    · exact ⟨_, hfetch, List.mem_cons_self⟩
  have hedit : Edit s.func (s.func.replace pos (.assign kept src)) :=
    .narrow hfetch (h.unread hdropped hdef)
  refine ⟨.single hedit, h.narrow hfetch hkept hedit, ?_⟩
  intro p hp
  rcases hfetch with hfetch | hfetch
  · exact (Function.fetch_replace hfetch _ p).trans (if_neg hp)
  · exact (Function.fetch_replace hfetch _ p).trans (if_neg hp)

/-- If nothing of the marked temps is left after `pos`, then sweeping the instruction at `pos`
leaves nothing of them from `pos` on and no other position changed. -/
theorem sweptTo_sweepAt (h : s.func.Obsolete s.ctx.obsolete (pos + 1))
    (hfetch : s.func.fetch pos = some inst) :
  s.SweptTo (s.sweepAt (pos, inst)) pos
  := by
  have hskip (hassert : ∀ kind t, inst ≠ .assertion kind t)
      (hdefs : ∀ t ∈ s.ctx.obsolete, t ∉ inst.defs) : s.SweptTo s pos := by
    refine sweptTo_skip h hfetch ?_ hdefs
    rintro t ht (⟨kind, rfl⟩ | ⟨d, hd, rfl⟩)
    · exact hassert kind t rfl
    · exact hdefs d hd (List.mem_singleton.mpr rfl)
  cases inst with
  | assign dest src =>
    simp only [sweepAt, isObsolete_iff]
    split
    · rename_i hd
      exact sweptTo_remove h hfetch rfl (by simpa [Inst.defs] using hd) [] (List.forall_mem_nil _)
    · rename_i hd
      exact hskip (by rintro _ _ ⟨⟩) fun t ht hmem => hd (List.mem_singleton.mp hmem ▸ ht)
  | binary op dest lhs rhs =>
    simp only [sweepAt, isObsolete_iff]
    split
    · rename_i hd
      exact sweptTo_remove h hfetch rfl (by simpa [Inst.defs] using hd) [lhs, rhs]
        fun t ht => ⟨ht, by rintro _ ⟨⟩⟩
    · rename_i hd
      exact hskip (by rintro _ _ ⟨⟩) fun t ht hmem => hd (List.mem_singleton.mp hmem ▸ ht)
  | unary op dest src =>
    simp only [sweepAt, isObsolete_iff]
    split
    · rename_i hd
      exact sweptTo_remove h hfetch rfl (by simpa [Inst.defs] using hd) [src]
        fun t ht => ⟨ht, by rintro _ ⟨⟩⟩
    · rename_i hd
      exact hskip (by rintro _ _ ⟨⟩) fun t ht hmem => hd (List.mem_singleton.mp hmem ▸ ht)
  | fork src dest1 dest2 =>
    simp only [sweepAt]
    split
    · rename_i h1 h2
      rw [isObsolete_iff] at h1 h2
      exact sweptTo_remove h hfetch rfl (by simp [Inst.defs, h1, h2]) [src]
        fun t ht => ⟨ht, by rintro _ ⟨⟩⟩
    · rename_i h1 h2
      rw [isObsolete_iff] at h1
      rw [← Bool.not_eq_true, isObsolete_iff] at h2
      exact sweptTo_narrow h (.inr hfetch) h2 h1
    · rename_i h1 h2
      rw [← Bool.not_eq_true, isObsolete_iff] at h1
      rw [isObsolete_iff] at h2
      exact sweptTo_narrow h (.inl hfetch) h1 h2
    · rename_i h1 h2
      rw [← Bool.not_eq_true, isObsolete_iff] at h1 h2
      refine hskip (by rintro _ _ ⟨⟩) fun t ht hmem => ?_
      rcases List.mem_cons.mp hmem with rfl | hmem
      · exact h1 ht
      · exact h2 (List.mem_singleton.mp hmem ▸ ht)
  | assertion kind arg =>
    simp only [sweepAt, Bool.or_eq_true, isObsolete_iff]
    split
    · rename_i hneedless
      have hedit : Edit s.func (s.func.remove pos) :=
        .eraseAssertion hfetch (hneedless.imp_left fun harg => h.idle harg)
      refine ⟨.single hedit, h.remove hedit hfetch (by rintro _ ⟨⟩), fun p hp => ?_⟩
      exact (Function.fetch_remove ..).trans (if_neg hp)
    · rename_i hneeded
      refine sweptTo_skip h hfetch ?_ fun _ _ => List.not_mem_nil
      rintro t ht (⟨_, hl⟩ | ⟨_, -, hl⟩)
      · cases hl
        exact hneeded (.inl ht)
      · cases hl
  | _ => exact hskip (by rintro _ _ ⟨⟩) fun _ _ => List.not_mem_nil

/-- Sweeping all instructions before `n`, the last one first, is a sequence of changes after which
nothing is left of the marked temps. -/
theorem sweptTo_foldl (entries : List (Nat × Inst)) (s : State) (n : Nat)
    (h : s.func.Obsolete s.ctx.obsolete n) (hsorted : entries.Pairwise fun a b => b.1 < a.1)
    (hfetch : ∀ e ∈ entries, e.1 < n ∧ s.func.fetch e.1 = some e.2)
    (hall : ∀ p i, s.func.fetch p = some i → p < n → (p, i) ∈ entries) :
  Edits s.func (entries.foldl sweepAt s).func ∧
    (entries.foldl sweepAt s).func.Obsolete (entries.foldl sweepAt s).ctx.obsolete 0
  := by
  induction entries generalizing s n with
  | nil => exact ⟨.refl, h.mono fun p i hi hp => absurd (hall p i hi hp) nofun⟩
  | cons e entries ih =>
    obtain ⟨pos, inst⟩ := e
    obtain ⟨hpos, hhead⟩ := hfetch _ List.mem_cons_self
    obtain ⟨hbefore, hrest⟩ := List.pairwise_cons.mp hsorted
    -- Nothing is left between this instruction and the position reached so far.
    have hle : s.func.Obsolete s.ctx.obsolete (pos + 1) := by
      refine h.mono fun p i hi hp => ?_
      rcases List.mem_cons.mp (hall p i hi hp) with heq | hmem
      · cases heq
        exact Nat.lt_succ_self _
      · exact Nat.lt_succ_of_lt (hbefore _ hmem)
    have hstep := sweptTo_sweepAt hle hhead
    have hdone := ih (s.sweepAt (pos, inst)) pos hstep.obsolete hrest ?_ ?_
    · exact ⟨hstep.edits.trans hdone.1, hdone.2⟩
    · intro e he
      have hlt := hbefore e he
      refine ⟨hlt, (hstep.fetch_eq e.1 (Nat.ne_of_lt hlt)).trans ?_⟩
      exact (hfetch e (List.mem_cons_of_mem _ he)).2
    · intro p i hi hp
      rw [hstep.fetch_eq p (Nat.ne_of_lt hp)] at hi
      rcases List.mem_cons.mp (hall p i hi (Nat.lt_trans hp hpos)) with heq | hmem
      · cases heq
        exact absurd hp (Nat.lt_irrefl _)
      · exact hmem

/-- The marks of a state are right, and no position is removed. -/
structure Settled (s : State) : Prop where
  obsolete : s.func.Obsolete s.ctx.obsolete s.func.size
  pending : s.func.pending = []

/-- The sweep is a sequence of changes after which no marks are needed. -/
theorem edits_sweep (h : s.func.Obsolete s.ctx.obsolete s.func.size) :
  Edits s.func s.sweep.func ∧ ∀ n, s.sweep.func.Obsolete [] n
  := by
  have hfold := sweptTo_foldl s.func.live.reverse s s.func.size h
    (List.pairwise_reverse.mpr (Function.pairwise_live _)) ?_ ?_
  · exact ⟨hfold.1, hfold.2.clear⟩
  · intro e he
    have hfetch := Function.mem_live.mp (List.mem_reverse.mp he)
    exact ⟨Function.lt_size_of_fetch hfetch, hfetch⟩
  · exact fun p i hi _ => List.mem_reverse.mpr (Function.mem_live.mpr hi)

/-- The sweep and the compaction that end a pass. -/
theorem settled_sweep (h : s.func.Obsolete s.ctx.obsolete s.func.size) :
  Edits s.func s.sweep.compact.func ∧ s.sweep.compact.Settled
  := by
  obtain ⟨hedits, hsweep⟩ := edits_sweep h
  obtain ⟨hobsolete, hpending⟩ := (hsweep 0).compact
  exact ⟨hedits.tail .compact, hobsolete, hpending⟩

end State

end StackCompiler.IR
