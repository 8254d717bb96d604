import StackCompiler.Proofs.Code.WellFormed

/-!
# Code without the removed positions

`Compacts f f' φ` says that `f'` is `f` without the positions marked for removal, `φ` being
where each position goes.  Order is kept, so well-formedness goes both ways: from a
function to the compacted one, and back to one with room made for an instruction.
-/

namespace StackCompiler.IR

namespace Function

variable {f f' : Function} {φ : Nat → Nat} {p q : Nat} {i : Inst}

/-- One function is another without the removed positions. -/
structure Compacts (f f' : Function) (φ : Nat → Nat) : Prop where
  zero : φ 0 = 0
  keep : ∀ p i, f.fetch p = some i → φ (p + 1) = φ p + 1 ∧ f'.fetch (φ p) = some i
  drop : ∀ p, p < f.size → f.fetch p = none → φ (p + 1) = φ p
  size : φ f.size = f'.size
  operands : f'.operands = f.operands
  parameterCount : f'.parameterCount = f.parameterCount
  labels : ∀ l p, f.labels.at? l = some p → f'.labels.at? l = some (φ p)
  labels' : ∀ l q, f'.labels.at? l = some q → ∃ p, f.labels.at? l = some p ∧ φ p = q

namespace Compacts

/-- A position does not go behind where the position before it goes. -/
theorem le_succ (h : f.Compacts f' φ) (hp : p < f.size) :
  φ p ≤ φ (p + 1)
  := by
  cases hf : f.fetch p with
  | none => exact Nat.le_of_eq (h.drop p hp hf).symm
  | some i =>
    rw [(h.keep p i hf).1]
    exact Nat.le_succ _

/-- Compaction keeps the order of positions. -/
theorem mono (h : f.Compacts f' φ) (hpq : p ≤ q) (hq : q ≤ f.size) :
  φ p ≤ φ q
  := by
  induction q with
  | zero => exact Nat.le_of_eq (congrArg φ (Nat.le_zero.mp hpq))
  | succ q ih =>
    rcases Nat.lt_or_eq_of_le hpq with hlt | rfl
    · exact Nat.le_trans (ih (Nat.le_of_lt_succ hlt) (Nat.le_of_succ_le hq)) (h.le_succ hq)
    · exact Nat.le_refl _

/-- What is kept stays in front of what comes after it. -/
theorem lt_of_lt (h : f.Compacts f' φ) (hi : f.fetch p = some i) (hpq : p < q) (hq : q ≤ f.size) :
  φ p < φ q
  := by
  have hle := h.mono (Nat.succ_le_of_lt hpq) hq
  rw [(h.keep p i hi).1] at hle
  exact hle

/-- Of two instructions that stay, one goes before the other exactly if it was before it. -/
theorem lt_iff (h : f.Compacts f' φ) {j : Inst} (hi : f.fetch p = some i) (hj : f.fetch q = some j) :
  φ p < φ q ↔ p < q
  := by
  constructor
  · intro hlt
    rcases Nat.lt_or_ge p q with hpq | hqp
    · exact hpq
    · have := h.mono hqp (Nat.le_of_lt (lt_size_of_fetch hi))
      omega
  · intro hlt
    exact h.lt_of_lt hi hlt (Nat.le_of_lt (lt_size_of_fetch hj))

/-- Two instructions that stay do not go to the same position. -/
theorem inj (h : f.Compacts f' φ) {j : Inst} (hi : f.fetch p = some i) (hj : f.fetch q = some j)
    (heq : φ p = φ q) :
  p = q
  := by
  have h₁ := h.lt_iff hi hj
  have h₂ := h.lt_iff hj hi
  omega

/-- Every position of the compacted code comes from one that is kept. -/
theorem exists_of_lt (h : f.Compacts f' φ) {n : Nat} (hn : n ≤ f.size) (hq : q < φ n) :
  ∃ p i, p < n ∧ φ p = q ∧ f.fetch p = some i ∧ f'.fetch q = some i
  := by
  induction n with
  | zero =>
    rw [h.zero] at hq
    cases hq
  | succ n ih =>
    cases hf : f.fetch n with
    | none =>
      rw [h.drop n hn hf] at hq
      obtain ⟨p, i, hp, hrest⟩ := ih (Nat.le_of_succ_le hn) hq
      exact ⟨p, i, Nat.lt_succ_of_lt hp, hrest⟩
    | some i =>
      obtain ⟨hsucc, hfetch⟩ := h.keep n i hf
      rw [hsucc] at hq
      rcases Nat.lt_succ_iff_lt_or_eq.mp hq with hlt | rfl
      · obtain ⟨p, i, hp, hrest⟩ := ih (Nat.le_of_succ_le hn) hlt
        exact ⟨p, i, Nat.lt_succ_of_lt hp, hrest⟩
      · exact ⟨n, i, Nat.lt_succ_self n, rfl, hf, hfetch⟩

/-- Every instruction of the compacted function comes from a position of the original. -/
theorem exists_of_fetch (h : f.Compacts f' φ) (hq : f'.fetch q = some i) :
  ∃ p, φ p = q ∧ f.fetch p = some i
  := by
  have hlt := lt_size_of_fetch hq
  rw [← h.size] at hlt
  obtain ⟨p, j, -, hp, hj, hj'⟩ := h.exists_of_lt (Nat.le_refl _) hlt
  rw [hq] at hj'
  cases hj'
  exact ⟨p, hp, hj⟩

/-! ### Definitions, reads and labels -/

theorem defines (h : f.Compacts f' φ) {t : OperandId} (hp : f.DefinesAt p t) :
  f'.DefinesAt (φ p) t
  := by
  obtain ⟨i, hi, ht⟩ := hp
  exact ⟨i, (h.keep p i hi).2, ht⟩

/-- A read that stays is a read where it goes. -/
theorem reads (h : f.Compacts f' φ) {p : Nat} {t : OperandId} (hp : f.ReadsAt p t) :
  f'.ReadsAt (φ p) t
  := by
  obtain ⟨i, hi, ht⟩ := hp
  exact ⟨i, (h.keep p i hi).2, ht⟩

/-- Every definition of the compacted function comes from one of the original. -/
theorem exists_defines (h : f.Compacts f' φ) {t : OperandId} (hq : f'.DefinesAt q t) :
  ∃ p, φ p = q ∧ f.DefinesAt p t
  := by
  obtain ⟨i, hi, ht⟩ := hq
  obtain ⟨p, hp, hi'⟩ := h.exists_of_fetch hi
  exact ⟨p, hp, i, hi', ht⟩

/-- Every read of the compacted function comes from one of the original. -/
theorem exists_reads (h : f.Compacts f' φ) {t : OperandId} (hq : f'.ReadsAt q t) :
  ∃ p, φ p = q ∧ f.ReadsAt p t
  := by
  obtain ⟨i, hi, ht⟩ := hq
  obtain ⟨p, hp, hi'⟩ := h.exists_of_fetch hi
  exact ⟨p, hp, i, hi', ht⟩

/-- Two instructions that stay are joined by straight-line code afterwards exactly if they were
before. -/
theorem straight_iff (h : f.Compacts f' φ) {j : Inst} (hq : f.fetch q = some i) (hp : f.fetch p = some j) :
  f'.Straight (φ q) (φ p) ↔ f.Straight q p
  := by
  constructor
  · intro hs r l hr hr' hfetch
    refine hs (φ r) l ((h.lt_iff hq hfetch).mpr hr) ?_ (h.keep r _ hfetch).2
    exact h.mono hr' (Nat.le_of_lt (lt_size_of_fetch hp))
  · intro hs r l hr hr' hfetch
    obtain ⟨r, rfl, hr₀⟩ := h.exists_of_fetch hfetch
    refine hs r l ((h.lt_iff hq hr₀).mp hr) ?_ hr₀
    rcases Nat.lt_or_ge p r with hlt | hge
    · have := (h.lt_iff hp hr₀).mpr hlt
      omega
    · exact hge

theorem operand_eq (h : f.Compacts f' φ) (id : OperandId) :
  f'.operand id = f.operand id
  := by
  unfold operand
  rw [h.operands]

theorem kind_eq (h : f.Compacts f' φ) (id : OperandId) :
  f'.kind id = f.kind id
  := by
  unfold kind
  rw [h.operand_eq]

/-- An instruction fits the compacted function exactly if it fits the original. -/
theorem fits_iff (h : f.Compacts f' φ) (inst : Inst) :
  inst.Fits f' ↔ inst.Fits f
  := by
  constructor
  · intro hf
    exact hf.of_kind (Nat.le_of_eq (by rw [h.operands])) fun id _ => (h.kind_eq id).symm
  · intro hf
    exact hf.of_kind (Nat.le_of_eq (by rw [h.operands])) fun id _ => h.kind_eq id

/-- Temps are numbered in turn after compaction exactly if they were before. -/
theorem numbered_iff (h : f.Compacts f' φ) :
  f'.Numbered ↔ f.Numbered
  := by
  have hcount : f'.tempCount = f.tempCount := by
    unfold tempCount
    rw [h.operands]
  constructor
  · rintro ⟨h₁, h₂, h₃⟩
    simp only [h.kind_eq, h.operands, hcount] at h₁ h₂ h₃
    exact ⟨h₁, h₂, h₃⟩
  · rintro ⟨h₁, h₂, h₃⟩
    constructor <;> simp only [h.kind_eq, h.operands, hcount]
    · exact h₁
    · exact h₂
    · exact h₃

/-! ### Well-formedness -/

/-- Compaction keeps code well formed. -/
theorem wellFormed (h : f.Compacts f' φ) (wf : f.WellFormed) :
  f'.WellFormed
  := by
  constructor
  · exact h.numbered_iff.mpr wf.numbered
  · intro q i hi
    obtain ⟨p, -, hi'⟩ := h.exists_of_fetch hi
    exact (h.fits_iff i).mpr (wf.fits p i hi')
  · intro l q
    constructor
    · intro hq
      obtain ⟨p, hp, rfl⟩ := h.labels' l q hq
      exact (h.keep p _ ((wf.labels l p).mp hp)).2
    · intro hq
      obtain ⟨p, rfl, hp⟩ := h.exists_of_fetch hq
      exact h.labels l p ((wf.labels l p).mpr hp)
  · intro p q t hp hq
    obtain ⟨p, rfl, hp₀⟩ := h.exists_defines hp
    obtain ⟨q, rfl, hq₀⟩ := h.exists_defines hq
    rw [wf.single p q t hp₀ hq₀]
  · intro p t hp ht
    obtain ⟨p, rfl, hp₀⟩ := h.exists_reads hp
    obtain ⟨q, hlt, hq⟩ := wf.defined p t hp₀ (by rwa [← isTemp_congr (h.kind_eq t)])
    obtain ⟨i, hi, -⟩ := hp₀
    obtain ⟨j, hj, -⟩ := id hq
    exact ⟨φ q, (h.lt_iff hj hi).mpr hlt, h.defines hq⟩

/-- A function is well formed if it is well formed once it is compacted, and its label table is
that of the instructions that stay. -/
theorem wellFormed_back (h : f.Compacts f' φ) (wf : f'.WellFormed)
    (hlabels : ∀ l p, f.labels.at? l = some p ↔ f.fetch p = some (.label l)) :
  f.WellFormed
  := by
  constructor
  · exact h.numbered_iff.mp wf.numbered
  · intro p i hi
    exact (h.fits_iff i).mp (wf.fits _ i (h.keep p i hi).2)
  · exact hlabels
  · intro p q t hp hq
    obtain ⟨i, hi, -⟩ := id hp
    obtain ⟨j, hj, -⟩ := id hq
    exact h.inj hi hj (wf.single _ _ t (h.defines hp) (h.defines hq))
  · intro p t hp ht
    obtain ⟨q, hlt, hq⟩ := wf.defined _ t (h.reads hp) (by rwa [isTemp_congr (h.kind_eq t)])
    obtain ⟨q, rfl, hq₀⟩ := h.exists_defines hq
    obtain ⟨i, hi, -⟩ := hp
    obtain ⟨j, hj, -⟩ := id hq₀
    exact ⟨q, (h.lt_iff hj hi).mp hlt, hq₀⟩

/-- Code is local after compaction exactly if it was before. -/
theorem local_iff (h : f.Compacts f' φ) :
  f'.Local ↔ f.Local
  := by
  constructor
  · intro hl q p t hq hp
    obtain ⟨i, hi, -⟩ := id hq
    obtain ⟨j, hj, -⟩ := id hp
    exact (h.straight_iff hi hj).mp (hl _ _ t (h.defines hq) (h.reads hp))
  · intro hl q p t hq hp
    obtain ⟨q, rfl, hq₀⟩ := h.exists_defines hq
    obtain ⟨p, rfl, hp₀⟩ := h.exists_reads hp
    obtain ⟨i, hi, -⟩ := id hq₀
    obtain ⟨j, hj, -⟩ := id hp₀
    exact (h.straight_iff hi hj).mpr (hl q p t hq₀ hp₀)

/-- Code is linear after compaction exactly if it was before, whatever operands are obsolete. -/
theorem linear_iff (h : f.Compacts f' φ) (obsolete : IdSet) :
  f'.Linear obsolete ↔ f.Linear obsolete
  := by
  constructor
  · intro hl
    refine ⟨?_, fun p i hi => hl.once _ i (h.keep p i hi).2⟩
    intro p q i t hi hti ht hlight hq
    have := hl.last (φ p) (φ q) i t (h.keep p i hi).2 hti (by rwa [isTemp_congr (h.kind_eq t)]) hlight
      (h.reads hq)
    obtain ⟨j, hj, -⟩ := hq
    have := h.lt_iff hi hj
    omega
  · intro hl
    constructor
    · intro p q i t hi hti ht hlight hq
      obtain ⟨p, rfl, hi₀⟩ := h.exists_of_fetch hi
      obtain ⟨q, rfl, hq₀⟩ := h.exists_reads hq
      have := hl.last p q i t hi₀ hti (by rwa [← isTemp_congr (h.kind_eq t)]) hlight hq₀
      exact h.mono this (Nat.le_of_lt (lt_size_of_fetch hi₀))
    · intro p i hi
      obtain ⟨p, rfl, hi₀⟩ := h.exists_of_fetch hi
      exact hl.once p i hi₀

end Compacts

/-! ### Dropping the removed positions -/

/-- The instructions left before a position. -/
def liveBefore (f : Function) (n : Nat) : List (Nat × Inst) :=
  (f.code.toList.zipIdx.take n).filterMap fun (inst, pos) =>
    if f.isRemoved pos then none else some (pos, inst)

/-- Where a position goes: to the number of instructions left before it. -/
def rank (f : Function) (n : Nat) : Nat := (f.liveBefore n).length

theorem liveBefore_size (f : Function) :
  f.liveBefore f.size = f.live
  := by
  unfold liveBefore live
  rw [List.take_of_length_le (by simp [size])]

/-- One position further on there is one live instruction more, or none if the position is
removed. -/
theorem liveBefore_succ {n : Nat} (hn : n < f.size) :
  f.liveBefore (n + 1)
    = f.liveBefore n ++ match f.fetch n with
      | some i => [(n, i)]
      | none => []
  := by
  obtain ⟨i, hi⟩ : ∃ i, f.code[n]? = some i := ⟨_, Array.getElem?_eq_getElem hn⟩
  have hz : f.code.toList.zipIdx[n]? = some (i, n) := by
    rw [List.getElem?_zipIdx, Array.getElem?_toList, hi]
    simp
  unfold liveBefore
  rw [List.take_add_one, hz, List.filterMap_append]
  congr 1
  simp only [fetch, inst?, hi]
  split <;> simp_all

/-- One position further on the rank is one more, or the same if the position is removed. -/
theorem rank_succ {n : Nat} (hn : n < f.size) :
  f.rank (n + 1) = f.rank n + if (f.fetch n).isSome then 1 else 0
  := by
  unfold rank
  rw [liveBefore_succ hn, List.length_append]
  cases f.fetch n <;> rfl

/-- An instruction that is left is found under its rank. -/
theorem getElem?_liveBefore {n : Nat} (hn : n ≤ f.size) (hp : p < n) (hi : f.fetch p = some i) :
  (f.liveBefore n)[f.rank p]? = some (p, i)
  := by
  induction n with
  | zero => cases hp
  | succ n ih =>
    rw [liveBefore_succ hn]
    rcases Nat.lt_succ_iff_lt_or_eq.mp hp with hlt | rfl
    · have hget := ih (Nat.le_of_succ_le hn) hlt
      rw [List.getElem?_append_left (List.getElem?_eq_some_iff.mp hget).1, hget]
    · rw [hi]
      change (f.liveBefore p ++ [(p, i)])[(f.liveBefore p).length]? = some (p, i)
      exact List.getElem?_concat_length

/-- The live instruction with the number `q` is at a position whose rank is `q`. -/
theorem rank_of_getElem?_live (h : f.live[q]? = some (p, i)) :
  f.fetch p = some i ∧ f.rank p = q
  := by
  have hi : f.fetch p = some i := mem_live.mp (List.mem_of_getElem? h)
  refine ⟨hi, ?_⟩
  have h' := getElem?_liveBefore (Nat.le_refl _) (lt_size_of_fetch hi) hi
  rw [liveBefore_size] at h'
  obtain ⟨hq, hq'⟩ := List.getElem?_eq_some_iff.mp h
  obtain ⟨hr, hr'⟩ := List.getElem?_eq_some_iff.mp h'
  have hpair := List.pairwise_iff_getElem.mp f.pairwise_live
  rcases Nat.lt_trichotomy (f.rank p) q with hlt | heq | hgt
  · have := hpair _ _ hr hq hlt
    rw [hq', hr'] at this
    exact absurd this (Nat.lt_irrefl _)
  · exact heq
  · have := hpair _ _ hq hr hgt
    rw [hq', hr'] at this
    exact absurd this (Nat.lt_irrefl _)

/-- A table made anew gives the position of every label that stands once. -/
theorem at?_labels_reindex (hp : f.pending = [])
    (hunique : ∀ l p q, f.fetch p = some (.label l) → f.fetch q = some (.label l) → p = q)
    (l : Label) (p : Nat) :
  (reindex f).labels.at? l = some p ↔ f.fetch p = some (.label l)
  := by
  change (labelsOf f.code.toList).at? l = some p ↔ _
  rw [at?_labelsOf, Array.getElem?_toList, ← fetch_of_pending_nil hp]
  constructor
  · exact fun h => h.1
  · intro h
    refine ⟨h, ?_⟩
    intro q hq
    rw [Array.getElem?_toList, ← fetch_of_pending_nil hp] at hq
    exact Nat.le_of_eq (hunique l q p hq h)

/-- Compacted code is the code without the removed positions: there is a map `φ` of the old
positions to the new ones. -/
theorem compacts_compact (hlabels : ∀ l p, f.labels.at? l = some p ↔ f.fetch p = some (.label l)) :
  ∃ φ, f.Compacts f.compact.2 φ
  := by
  unfold compact
  split
  · rename_i hpending
    have hnil : f.pending = [] := List.isEmpty_iff.mp hpending
    refine ⟨id, rfl, fun p i hi => ⟨rfl, hi⟩, ?_, rfl, rfl, rfl, fun _ _ h => h,
      fun _ q h => ⟨q, h, rfl⟩⟩
    intro p hp hnone
    rw [fetch_of_pending_nil hnil, Array.getElem?_eq_none_iff] at hnone
    exact absurd hp (Nat.not_lt_of_le hnone)
  · refine ⟨f.rank, ?_⟩
    let g : Function := reindex { f with code := (f.live.map (·.2)).toArray, pending := [] }
    have hcode : ∀ q, g.fetch q = (f.live[q]?).map (·.2) := by
      intro q
      rw [fetch_of_pending_nil rfl]
      simp [g, reindex]
    have hkeep : ∀ p i, f.fetch p = some i → f.rank (p + 1) = f.rank p + 1 ∧
        g.fetch (f.rank p) = some i := by
      intro p i hi
      have hlt := lt_size_of_fetch hi
      constructor
      · rw [rank_succ hlt, hi]
        rfl
      · have hget := getElem?_liveBefore (Nat.le_refl _) hlt hi
        rw [liveBefore_size] at hget
        rw [hcode, hget]
        rfl
    have hdrop : ∀ p, p < f.size → f.fetch p = none → f.rank (p + 1) = f.rank p := by
      intro p hp hnone
      rw [rank_succ hp, hnone]
      rfl
    have hsize : f.rank f.size = g.size := by
      unfold rank
      rw [liveBefore_size]
      simp [g, reindex, size]
    have hback : ∀ q i, g.fetch q = some i → ∃ p, f.rank p = q ∧ f.fetch p = some i := by
      intro q i hq
      rw [hcode, Option.map_eq_some_iff] at hq
      obtain ⟨⟨p, j⟩, hp, rfl⟩ := hq
      obtain ⟨hfetch, hrank⟩ := rank_of_getElem?_live hp
      exact ⟨p, hrank, hfetch⟩
    -- A label stands once in the new code because it stands once in the old.
    have hnew : ∀ l q, g.labels.at? l = some q ↔ g.fetch q = some (.label l) := by
      apply at?_labels_reindex (f := { f with code := (f.live.map (·.2)).toArray, pending := [] }) rfl
      intro l p q hp hq
      obtain ⟨p, rfl, hp₀⟩ := hback p _ hp
      obtain ⟨q, rfl, hq₀⟩ := hback q _ hq
      rw [← hlabels] at hp₀ hq₀
      rw [hp₀] at hq₀
      rw [Option.some.inj hq₀]
    refine ⟨rfl, hkeep, hdrop, hsize, rfl, rfl, ?_, ?_⟩
    · intro l p hp
      exact (hnew l _).mpr (hkeep p _ ((hlabels l p).mp hp)).2
    · intro l q hq
      obtain ⟨p, rfl, hp⟩ := hback q _ ((hnew l q).mp hq)
      exact ⟨p, (hlabels l p).mpr hp, rfl⟩

/-! ### Making room -/

/-- The function with an instruction put in before a position. -/
def inserted (f : Function) (k : Nat) (inst : Inst) : Function :=
  reindex { f with code := (f.code.toList.insertIdx k inst).toArray }

/-- The function with room before a position: what is put there counts as removed. -/
def withRoom (f : Function) (k : Nat) (inst : Inst) : Function :=
  { f.inserted k inst with pending := [k] }

theorem insert_of_pending_nil (hp : f.pending = []) (k : Nat) (inst : Inst) :
  f.insert k inst = .ok (f.inserted k inst)
  := if_pos (List.isEmpty_iff.mpr hp)

section

variable {k : Nat} {inst : Inst}

/-- After an insertion before `k`, positions before `k` are as they were, `k` has the new
instruction, and those behind have moved by one. -/
theorem getElem?_code_inserted (hk : k ≤ f.size) (p : Nat) :
  (f.inserted k inst).code[p]?
    = if p < k then f.code[p]? else if p = k then some inst else f.code[p - 1]?
  := by
  change (f.code.toList.insertIdx k inst).toArray[p]? = _
  rw [List.getElem?_toArray, List.getElem?_insertIdx]
  simp only [Array.getElem?_toList, Array.length_toList]
  split
  · rfl
  · split
    · rename_i hpk
      rw [if_pos (hpk ▸ hk)]
    · rfl

/-- What is fetched after an insertion before `k` into code without marks: positions before `k`
are as they were, and those behind have moved by one. -/
theorem fetch_inserted (hp : f.pending = []) (hk : k ≤ f.size) (p : Nat) :
  (f.inserted k inst).fetch p
    = if p < k then f.fetch p else if p = k then some inst else f.fetch (p - 1)
  := by
  rw [fetch_of_pending_nil (by exact hp), getElem?_code_inserted hk, fetch_of_pending_nil hp,
    fetch_of_pending_nil hp]

/-- With room made before `k`, nothing is fetched at `k`, and what was there and behind has moved
by one. -/
theorem fetch_withRoom (hp : f.pending = []) (hk : k ≤ f.size) (p : Nat) :
  (f.withRoom k inst).fetch p
    = if p < k then f.fetch p else if p = k then none else f.fetch (p - 1)
  := by
  have hfetch : (f.withRoom k inst).fetch p
      = if p = k then none else (f.inserted k inst).fetch p := by
    have hpending : (f.inserted k inst).pending = [] := hp
    simp only [fetch, isRemoved, withRoom, hpending]
    by_cases h : p = k <;> simp [h, inst?]
  rw [hfetch, fetch_inserted hp hk]
  by_cases h : p = k
  · simp [h]
  · simp [h]

theorem size_inserted (hk : k ≤ f.size) :
  (f.inserted k inst).size = f.size + 1
  := by
  simp only [size, inserted, reindex, List.size_toArray]
  rw [List.length_insertIdx_of_le_length (by simpa [size] using hk)]
  simp

/-- The label table knows the labels in their new places. -/
theorem at?_labels_inserted (hp : f.pending = []) (hk : k ≤ f.size)
    (hinst : ∀ l, inst ≠ .label l)
    (hlabels : ∀ l p, f.labels.at? l = some p ↔ f.fetch p = some (.label l)) (l : Label) (p : Nat) :
  (f.inserted k inst).labels.at? l = some p ↔ (f.inserted k inst).fetch p = some (.label l)
  := by
  apply at?_labels_reindex (by exact hp)
  intro l p q hp' hq'
  -- Both places come from the one place that the label had.
  have hback : ∀ r, (f.inserted k inst).fetch r = some (.label l) →
      f.labels.at? l = some (if r < k then r else r - 1) ∧ r ≠ k := by
    intro r hr
    rw [fetch_inserted hp hk] at hr
    split at hr
    · rename_i hlt
      rw [if_pos hlt]
      exact ⟨(hlabels l r).mpr hr, Nat.ne_of_lt hlt⟩
    · rename_i hge
      split at hr
      · exact absurd (Option.some.inj hr) (hinst l)
      · rename_i hne
        rw [if_neg hge]
        exact ⟨(hlabels l _).mpr hr, hne⟩
  obtain ⟨h₁, hne₁⟩ := hback p hp'
  obtain ⟨h₂, hne₂⟩ := hback q hq'
  rw [h₁] at h₂
  have := Option.some.inj h₂
  split at this <;> split at this <;> omega

/-- No label is where an instruction is put in. -/
theorem label_withRoom_iff (hp : f.pending = []) (hk : k ≤ f.size) (hinst : ∀ l, inst ≠ .label l)
    (p : Nat) (l : Label) :
  (f.inserted k inst).fetch p = some (.label l) ↔ (f.withRoom k inst).fetch p = some (.label l)
  := by
  rw [fetch_withRoom hp hk, fetch_inserted hp hk]
  split
  · rfl
  · split
    · simp [hinst l]
    · rfl

theorem at?_labels_withRoom (hp : f.pending = []) (hk : k ≤ f.size) (hinst : ∀ l, inst ≠ .label l)
    (hlabels : ∀ l p, f.labels.at? l = some p ↔ f.fetch p = some (.label l)) (l : Label) (p : Nat) :
  (f.withRoom k inst).labels.at? l = some p ↔ (f.withRoom k inst).fetch p = some (.label l)
  := (at?_labels_inserted hp hk hinst hlabels l p).trans (label_withRoom_iff hp hk hinst p l)

/-- A function with room in it is the function itself once the room is dropped. -/
theorem compacts_withRoom (hp : f.pending = []) (hk : k ≤ f.size) (hinst : ∀ l, inst ≠ .label l)
    (hlabels : ∀ l p, f.labels.at? l = some p ↔ f.fetch p = some (.label l)) :
  (f.withRoom k inst).Compacts f (fun p => if p ≤ k then p else p - 1)
  := by
  have hfetch : ∀ p, (f.withRoom k inst).fetch p = _ := fetch_withRoom hp hk
  have hsize : (f.withRoom k inst).size = f.size + 1 := size_inserted hk
  have htable := at?_labels_inserted hp hk hinst hlabels
  have hroom := label_withRoom_iff hp hk hinst
  constructor
  · rfl
  · intro p i hi
    rw [hfetch] at hi
    split at hi
    · rename_i hlt
      rw [if_pos (by omega), if_pos (by omega)]
      exact ⟨rfl, hi⟩
    · split at hi
      · cases hi
      · rw [if_neg (by omega), if_neg (by omega)]
        exact ⟨by omega, hi⟩
  · intro p hlt hnone
    have hpk : p = k := by
      rw [hfetch] at hnone
      split at hnone
      · rename_i h
        rw [fetch_of_pending_nil hp, Array.getElem?_eq_none_iff] at hnone
        unfold size at hk
        omega
      · split at hnone
        · assumption
        · rw [fetch_of_pending_nil hp, Array.getElem?_eq_none_iff] at hnone
          unfold size at hsize hlt
          omega
    rw [hpk, if_pos (Nat.le_refl _), if_neg (by omega)]
    omega
  · rw [hsize, if_neg (by omega)]
    omega
  · rfl
  · rfl
  · intro l p h
    have hq := (hroom p l).mp ((htable l p).mp h)
    rw [hfetch] at hq
    split at hq
    · rw [if_pos (by omega)]
      exact (hlabels l p).mpr hq
    · split at hq
      · cases hq
      · rw [if_neg (by omega)]
        exact (hlabels l _).mpr hq
  · intro l q h
    have hq := (hlabels l q).mp h
    refine ⟨if q < k then q else q + 1, ?_, ?_⟩
    · apply (htable l _).mpr
      apply (hroom _ l).mpr
      rw [hfetch]
      by_cases hlt : q < k
      · simp [hlt, hq]
      · simp only [if_neg hlt]
        rw [if_neg (by omega), if_neg (by omega)]
        exact hq
    · split
      · rw [if_pos (by omega)]
      · rw [if_neg (by omega)]
        rfl

end

end Function

end StackCompiler.IR
