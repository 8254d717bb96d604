import StackCompiler.Proofs.Passes.Scans

/-!
# Dead temps and copies

The temps that are marked are not read, or are copies of temps that are then read in their
place.  Reading the source of a copy in its place is one renaming of the whole function: the
scan makes it as it comes to the instructions.
-/

namespace StackCompiler.IR

/-- A light use of an operand is a light use of what is read in its place. -/
theorem Inst.IsLight.mapUses {marks : IdSet} {inst : Inst} {t : OperandId}
    (h : inst.IsLight marks t) (r : OperandId → OperandId) :
  (inst.mapUses r).IsLight marks (r t)
  := by
  rcases h with ⟨k, rfl⟩ | ⟨d, hd, rfl⟩
  · exact .inl ⟨k, rfl⟩
  · exact .inr ⟨d, hd, rfl⟩

namespace Function

variable {f : Function} {marks : IdSet} {n pos : Nat} {t s : OperandId}

/-- A temp that nothing reads is not needed. -/
theorem Obsolete.mark_unread (h : f.Obsolete marks f.size) (hlt : t < f.operands.size)
    (htemp : f.isTemp t = true) (hunread : f.Unread t) :
  f.Obsolete (IdSet.add t marks) f.size
  := by
  refine ⟨h.wellFormed, h.linear.mono (subset_add t marks), ?_, ?_, ?_⟩
  · intro u hu
    rcases (IdSet.mem_add ..).mp hu with rfl | hu
    · exact ⟨hlt, htemp⟩
    · exact h.temp u hu
  · intro u hu p i hi huse
    rcases (IdSet.mem_add ..).mp hu with rfl | hu
    · exact absurd ⟨i, hi, huse⟩ (hunread p)
    · obtain ⟨hp, hlight⟩ := h.reader u hu p i hi huse
      exact ⟨hp, hlight.mono (subset_add t marks)⟩
  · exact fun u _ p ⟨i, hi, _⟩ => lt_size_of_fetch hi

/-- If the source `s` is read in place of its copy `t`, then `t` can be marked along with the rest.
-/
theorem Obsolete.renamed (h : f.Obsolete marks n) (hfetch : f.fetch pos = some (.assign t s))
    (hs : f.isTemp s = true) (ht : t ∉ marks) (hn : pos < n) :
  (f.renamed t s).Obsolete (IdSet.add t marks) n
  := by
  have wf := h.wellFormed
  have hdef : f.DefinesAt pos t := ⟨_, hfetch, List.mem_singleton.mpr rfl⟩
  have hread : f.ReadsAt pos s := ⟨_, hfetch, List.mem_singleton.mpr rfl⟩
  obtain ⟨htlt, htemp⟩ := wf.isTemp_of_defines hdef
  have hcopy : ∀ u, ¬ (Inst.assign t s).IsLight marks u := by
    rintro u (⟨_, hl⟩ | ⟨d, hd, hl⟩) <;> cases hl
    exact ht hd
  have hne : s ≠ t := by
    rintro rfl
    exact absurd (wf.lt_of_reads hdef hread hs) (Nat.lt_irrefl _)
  have hsmark : s ∉ marks := fun hmem =>
    hcopy s (h.reader s hmem pos _ hfetch (List.mem_singleton.mpr rfl)).2
  -- The copy is the last read of the source.
  have hlast : ∀ q, f.ReadsAt q s → q ≤ pos := fun q hq =>
    h.linear.last pos q _ s hfetch (List.mem_singleton.mpr rfl) hs (hcopy s) hq
  refine ⟨(keepsOrder_renamed wf hfetch hs).wellFormed, ⟨?_, ?_⟩, ?_, ?_, ?_⟩
  · intro p q i' u hi' hu hutemp hlight hq
    obtain ⟨i, hi, rfl⟩ := fetch_renamed_eq_some.mp hi'
    rw [Inst.uses_mapUses] at hu
    obtain ⟨w, hw, rfl⟩ := List.mem_map.mp hu
    have hlight' : ¬ i.IsLight marks w := fun hl =>
      hlight ((hl.mapUses _).mono (subset_add t marks))
    by_cases hwt : w = t
    · subst hwt
      have hsub : substitute w s w = s := if_pos rfl
      rw [hsub] at hq
      have hp := wf.lt_of_reads hdef ⟨i, hi, hw⟩ htemp
      rcases reads_renamed hq with ⟨hq, -⟩ | ⟨hq, -⟩
      · have := hlast q hq
        omega
      · exact h.linear.last p q i w hi hw htemp hlight' hq
    · have hsub : substitute t s w = w := if_neg hwt
      rw [hsub] at hq hlight hutemp
      rcases reads_renamed hq with ⟨hq, -⟩ | ⟨-, rfl⟩
      · exact h.linear.last p q i w hi hw hutemp hlight' hq
      · -- Only the copy itself could read the source so, and it is light now.
        have h₁ := h.linear.last p pos i w hi hw hs hlight' hread
        have h₂ := hlast p ⟨i, hi, hw⟩
        obtain rfl : p = pos := by omega
        rw [hfetch] at hi
        cases hi
        exact absurd (.inr ⟨t, (IdSet.mem_add ..).mpr (.inl rfl), congrArg _ hsub⟩) hlight
  · intro p i' hi'
    obtain ⟨i, hi, rfl⟩ := fetch_renamed_eq_some.mp hi'
    rw [Inst.uses_mapUses]
    refine List.pairwise_map.mpr ((h.linear.once p i hi).imp_of_mem ?_)
    -- What reads the copy comes after it, and what reads its source does not.
    have hboth : ¬ (t ∈ i.uses ∧ s ∈ i.uses) := by
      rintro ⟨htu, hsu⟩
      have h₁ := wf.lt_of_reads hdef ⟨i, hi, htu⟩ htemp
      have h₂ := hlast p ⟨i, hi, hsu⟩
      omega
    intro a b ha hb hab
    unfold substitute
    grind
  · intro u hu
    rcases (IdSet.mem_add ..).mp hu with rfl | hu
    · exact ⟨htlt, htemp⟩
    · exact h.temp u hu
  · intro u hu p i' hi' huse
    rcases (IdSet.mem_add ..).mp hu with rfl | hu
    · rcases reads_renamed ⟨i', hi', huse⟩ with ⟨-, hself⟩ | ⟨-, hself⟩
      · exact absurd rfl hself
      · exact absurd hself.symm hne
    · obtain ⟨i, hi, rfl⟩ := fetch_renamed_eq_some.mp hi'
      have hut : u ≠ t := fun heq => ht (heq ▸ hu)
      rw [Inst.uses_mapUses] at huse
      obtain ⟨w, hw, hwu⟩ := List.mem_map.mp huse
      unfold substitute at hwu
      split at hwu
      · exact absurd (hwu ▸ hu) hsmark
      · subst hwu
        obtain ⟨hp, hlight⟩ := h.reader w hu p i hi hw
        have := (hlight.mapUses (substitute t s)).mono (subset_add t marks)
        rw [show substitute t s w = w from if_neg hut] at this
        exact ⟨hp, this⟩
  · intro u hu p hd
    rw [defines_renamed_iff] at hd
    rcases (IdSet.mem_add ..).mp hu with rfl | hu
    · obtain ⟨i, hi, hmem⟩ := hd
      rwa [(wf.eq_of_defs hi hfetch hmem (List.mem_singleton.mpr rfl)).1]
    · exact h.definition u hu p hd

end Function

/-! ### The scan for copies -/

namespace CopyScan

/-- A scan of `f` that has come to a position, and the function `g` in which every copy found
is renamed: they differ from that position on only. -/
structure Follows (f : Function) (scan : CopyScan) (k : Nat) (g : Function) : Prop where
  edits : Edits f g
  obsolete : g.Obsolete scan.state.ctx.obsolete g.size
  pending : g.pending = []
  same : g = { scan.state.func with code := g.code }
  done : ∀ p, p < k → g.fetch p = scan.state.func.fetch p
  todo : ∀ p, k ≤ p → scan.state.func.fetch p = f.fetch p ∧
    g.fetch p = (f.fetch p).map (·.mapUses scan.source)
  copy : ∀ x y, scan.copies.at? x = some y → x ∈ scan.state.ctx.obsolete ∧ ∃ q, q < k ∧ g.ReadsAt q y

variable {f g : Function} {scan : CopyScan} {k pos : Nat} {inst : Inst}

/-- An instruction that reads the sources of copies in their place takes the scan past `pos`, and
the function `g` stays the same. -/
theorem Follows.skip (h : scan.Follows f k g) (hfetch : f.fetch pos = some inst) (hk : k ≤ pos)
    (hnone : ∀ p, k ≤ p → p < pos → f.fetch p = none) :
  Follows f { scan with state := scan.state.replace pos (inst.mapUses scan.source) } (pos + 1) g
  := by
  obtain ⟨hold, hnew⟩ := h.todo pos hk
  have hview : ∀ p, (scan.state.func.replace pos (inst.mapUses scan.source)).fetch p = _ :=
    Function.fetch_replace (hold.trans hfetch) _
  refine ⟨h.edits, h.obsolete, h.pending, h.same, ?_, ?_, ?_⟩
  · intro p hp
    refine Eq.trans ?_ (hview p).symm
    split
    · rename_i hpos
      rw [hpos, hnew, hfetch]
      rfl
    · rcases Nat.lt_or_ge p k with hlt | hge
      · exact h.done p hlt
      · obtain ⟨h₁, h₂⟩ := h.todo p hge
        rw [h₁, h₂, hnone p hge (by omega)]
        rfl
  · intro p hp
    obtain ⟨h₁, h₂⟩ := h.todo p (by omega)
    exact ⟨(hview p).trans ((if_neg (by omega)).trans h₁), h₂⟩
  · intro x y hxy
    obtain ⟨hx, q, hq, hread⟩ := h.copy x y hxy
    exact ⟨hx, q, by omega, hread⟩

/-- The step over a copy of a temp: the remaining instructions read its source. -/
theorem Follows.rename (h : scan.Follows f (pos + 1) g) {d src : OperandId}
    (hfetch : g.fetch pos = some (.assign d src)) (hsrc : g.isTemp src = true)
    (hd : d ∉ scan.state.ctx.obsolete) (hother : ∀ x y, scan.copies.at? x = some y → y ≠ d) :
  Follows f ⟨scan.state.mark d, scan.copies.put d src⟩ (pos + 1) (g.renamed d src)
  := by
  have wf := h.obsolete.wellFormed
  have hdef : g.DefinesAt pos d := ⟨_, hfetch, List.mem_singleton.mpr rfl⟩
  have htemp := (wf.isTemp_of_defines hdef).2
  have hsize := (g.inPlace_renamed d src).size_eq
  refine ⟨h.edits.tail (.rename hfetch hsrc), ?_, h.pending, ?_, ?_, ?_, ?_⟩
  · rw [hsize]
    exact h.obsolete.renamed hfetch hsrc hd (Function.lt_size_of_fetch hfetch)
  · exact congrArg (fun g' : Function => { g' with code := (g.renamed d src).code }) h.same
  · intro p hp
    refine Eq.trans ?_ (h.done p hp)
    rw [Function.fetch_renamed]
    cases hi : g.fetch p with
    | none => rfl
    | some i =>
      -- The copy is not read before it is made.
      refine congrArg some (Inst.mapUses_of_fixed fun t ht => if_neg ?_)
      rintro rfl
      have := wf.lt_of_reads hdef ⟨i, hi, ht⟩ htemp
      omega
  · intro p hp
    obtain ⟨h₁, h₂⟩ := h.todo p hp
    refine ⟨h₁, ?_⟩
    rw [Function.fetch_renamed, h₂, Option.map_map]
    congr 1
    funext i
    simp only [Function.comp_apply, Inst.mapUses_mapUses]
    apply Inst.mapUses_congr
    intro t _
    unfold source Function.substitute
    simp only [Table.at?_put]
    by_cases ht : t = d
    · subst ht
      have : scan.copies.at? t = none := by
        rw [Option.eq_none_iff_forall_ne_some]
        exact fun y hy => hd (h.copy t y hy).1
      simp [this]
    · cases hy : scan.copies.at? t with
      | none => simp [ht]
      | some y => simp [ht, hother t y hy]
  · intro x y hxy
    rw [Table.at?_put] at hxy
    split at hxy
    · rename_i hx
      cases hxy
      refine ⟨(IdSet.mem_add ..).mpr (.inl hx), pos, Nat.lt_succ_self _, ?_⟩
      refine ⟨_, Function.fetch_renamed_eq_some.mpr ⟨_, hfetch, rfl⟩, ?_⟩
      unfold Function.substitute
      simp [Inst.mapUses, Inst.uses]
    · obtain ⟨hx, q, hq, i, hi, hy⟩ := h.copy x y hxy
      refine ⟨(IdSet.mem_add ..).mpr (.inr hx), q, hq, ?_⟩
      refine ⟨_, Function.fetch_renamed_eq_some.mpr ⟨i, hi, rfl⟩, ?_⟩
      rw [Inst.uses_mapUses]
      exact List.mem_map.mpr ⟨y, hy, if_neg (hother x y hxy)⟩

/-- The visit of the next instruction, at `pos`, takes the scan past `pos` and follows some function
`g'`, where a copy of a temp is renamed as well. -/
theorem Follows.visit (h : scan.Follows f k g) (hfetch : f.fetch pos = some inst) (hk : k ≤ pos)
    (hnone : ∀ p, k ≤ p → p < pos → f.fetch p = none) :
  ∃ g', (scan.visit (pos, inst)).Follows f (pos + 1) g'
  := by
  have hskip := h.skip hfetch hk hnone
  have hg : g.fetch pos = some (inst.mapUses scan.source) := by
    rw [(h.todo pos hk).2, hfetch]
    rfl
  have hkind : ∀ id, (scan.state.replace pos (inst.mapUses scan.source)).func.isTemp id = g.isTemp id := by
    intro id
    rw [h.same]
    rfl
  unfold CopyScan.visit
  simp only []
  split
  · rename_i d src hinst
    rw [hinst] at hg
    split
    · rename_i hcond
      simp only [Bool.and_eq_true, Bool.not_eq_true', hkind] at hcond
      obtain ⟨⟨-, hsrc⟩, hd⟩ := hcond
      refine ⟨_, hskip.rename hg hsrc ?_ ?_⟩
      · rw [← Bool.not_eq_true, State.isObsolete_iff] at hd
        exact hd
      · rintro x y hxy rfl
        obtain ⟨-, q, hq, hread⟩ := h.copy x y hxy
        have wf := h.obsolete.wellFormed
        have hdef : g.DefinesAt pos y := ⟨_, hg, List.mem_singleton.mpr rfl⟩
        have := wf.lt_of_reads hdef hread (wf.isTemp_of_defines hdef).2
        omega
    · exact ⟨g, hskip⟩
  · exact ⟨g, hskip⟩

/-- Visiting the instructions from a position on, in order, takes the scan to the end of the code.
-/
theorem Follows.foldl (entries : List (Nat × Inst)) (hsorted : entries.Pairwise fun a b => a.1 < b.1)
    (hentries : ∀ e ∈ entries, k ≤ e.1 ∧ f.fetch e.1 = some e.2)
    (hall : ∀ p i, f.fetch p = some i → k ≤ p → (p, i) ∈ entries) (h : scan.Follows f k g) :
  ∃ g' n, (entries.foldl CopyScan.visit scan).Follows f n g' ∧ ∀ p, n ≤ p → f.fetch p = none
  := by
  induction entries generalizing scan k g with
  | nil =>
    refine ⟨g, k, h, fun p hp => ?_⟩
    rw [Option.eq_none_iff_forall_ne_some]
    exact fun i hi => nomatch hall p i hi hp
  | cons e entries ih =>
    obtain ⟨hafter, hrest⟩ := List.pairwise_cons.mp hsorted
    obtain ⟨hk, hfetch⟩ := hentries e List.mem_cons_self
    obtain ⟨g', hvisit⟩ := h.visit hfetch hk fun p hp hlt => by
      rw [Option.eq_none_iff_forall_ne_some]
      intro i hi
      rcases List.mem_cons.mp (hall p i hi hp) with rfl | hmem
      · exact absurd hlt (Nat.lt_irrefl _)
      · exact absurd (hafter _ hmem) (Nat.not_lt.mpr (Nat.le_of_lt hlt))
    refine ih hrest ?_ ?_ hvisit
    · exact fun e' he' => ⟨hafter e' he', (hentries e' (List.mem_cons_of_mem _ he')).2⟩
    · intro p i hi hp
      rcases List.mem_cons.mp (hall p i hi (by omega)) with rfl | hmem
      · exact absurd hp (Nat.lt_irrefl _)
      · exact hmem

end CopyScan

namespace State

variable {s : State}

/-- Reading copies at their source is a sequence of changes and leaves right marks. -/
theorem reaches_forwardCopies (h : s.Settled) :
  s.Reaches s.forwardCopies
  := by
  have hstart : CopyScan.Follows s.func { state := s } 0 s.func := by
    refine ⟨.refl, h.obsolete, h.pending, rfl, fun _ => nofun, ?_, fun _ _ => nofun⟩
    intro p _
    refine ⟨rfl, ?_⟩
    have hid : ∀ i : Inst, i.mapUses (CopyScan.source { state := s }) = i :=
      fun i => Inst.mapUses_of_fixed fun _ _ => rfl
    simp [hid]
  obtain ⟨g, n, hg, hnone⟩ := hstart.foldl s.func.live (Function.pairwise_live _)
    (fun e he => ⟨Nat.zero_le _, Function.mem_live.mp he⟩) fun p i hi _ => Function.mem_live.mpr hi
  -- At the end nothing is left to be renamed.
  have hcode : g.code = s.forwardCopies.func.code := by
    have hpending : s.forwardCopies.func.pending = [] := by
      have := hg.pending
      rw [hg.same] at this
      exact this
    apply Array.ext_getElem?
    intro p
    rw [← Function.fetch_of_pending_nil hg.pending, ← Function.fetch_of_pending_nil hpending]
    rcases Nat.lt_or_ge p n with hlt | hge
    · exact hg.done p hlt
    · obtain ⟨h₁, h₂⟩ := hg.todo p hge
      refine h₂.trans (Eq.trans ?_ h₁.symm)
      rw [hnone p hge]
      rfl
  have hfunc : g = s.forwardCopies.func := by
    rw [hg.same, hcode]
    rfl
  rw [hfunc] at hg
  exact ⟨hg.edits, hg.obsolete, hg.pending⟩

/-- The temps found dead are not needed. -/
theorem settled_markAll (h : s.Settled) (ids : List OperandId)
    (hids : ∀ t ∈ ids, t < s.func.operands.size ∧ s.func.isTemp t = true ∧ s.func.Unread t) :
  (s.markAll ids).Settled
  := by
  unfold markAll
  induction ids generalizing s with
  | nil => exact h
  | cons t ids ih =>
    obtain ⟨hlt, htemp, hunread⟩ := hids t List.mem_cons_self
    have hmark : (s.mark t).Settled := ⟨h.obsolete.mark_unread hlt htemp hunread, h.pending⟩
    exact ih hmark fun u hu => hids u (List.mem_cons_of_mem _ hu)

/-- One repetition: temps that are never read are marked, and copies are read at their source. -/
theorem reaches_forwardDead {s s₁ : State} (h : s.Settled) (hana : s.analyze Function.intervals = .ok s₁) :
  s.Reaches s₁.markDead.forwardCopies
  := by
  have hreach := reaches_analyze h (Function.sameHints_intervals s.func)
  rw [hana] at hreach
  replace hreach : s.Reaches s₁ := hreach
  have hcovers := (Function.covers_intervals h.obsolete.wellFormed (analyze_eq_ok hana).1).1
  have hsame := hcovers.sameHints.same
  have hmark : s₁.markDead.Settled := by
    apply settled_markAll hreach.settled
    intro t ht
    obtain ⟨htemps, hdead⟩ := List.mem_filter.mp ht
    obtain ⟨hid, htemp⟩ := List.mem_filter.mp htemps
    refine ⟨List.mem_range.mp hid, htemp, ?_⟩
    rw [Function.isTemp_congr (hsame.kind_eq t)] at htemp
    have hunread := hcovers.unread_of_isDead htemp hdead
    exact fun p ⟨i, hi, hu⟩ => hunread p ⟨i, hsame.fetch_eq p ▸ hi, hu⟩
  have hcopies := reaches_forwardCopies hmark
  refine ⟨hreach.edits.trans ?_, hcopies.settled⟩
  have hedits := hcopies.edits
  unfold markDead at hedits
  rwa [func_markAll] at hedits

/-- A round for dead temps is the last one if nothing is marked; otherwise the next round starts
from the swept code. -/
theorem removeTemps_succ {s s₁ : State} (h : s.analyze Function.intervals = .ok s₁) (fuel : Nat) :
  removeTemps (fuel + 1) s =
    if s₁.markDead.forwardCopies.ctx.obsolete.isEmpty then pure s₁.markDead.forwardCopies
    else removeTemps fuel s₁.markDead.forwardCopies.sweep.compact
  := by
  rw [removeTemps, h]
  rfl

/-- The rounds that remove dead temps are a sequence of changes and leave right marks. -/
theorem reaches_removeTemps (fuel : Nat) (s : State) (h : s.Settled) :
  s.Reaches (removeTemps fuel s).state
  := by
  induction fuel generalizing s with
  | zero => exact .refl h
  | succ fuel ih =>
    cases hana : s.analyze Function.intervals with
    | error stopped =>
      have hreach := reaches_analyze h (Function.sameHints_intervals s.func)
      rw [hana] at hreach
      rw [removeTemps, hana]
      exact hreach
    | ok s₁ =>
      have hforward := reaches_forwardDead h hana
      rw [removeTemps_succ hana]
      split
      · exact hforward
      · obtain ⟨hsweep, hsettled⟩ := settled_sweep hforward.settled.obsolete
        have hround : s.Reaches _ := ⟨hforward.edits.trans hsweep, hsettled⟩
        exact hround.trans (ih _ hsettled)

end State

end StackCompiler.IR
