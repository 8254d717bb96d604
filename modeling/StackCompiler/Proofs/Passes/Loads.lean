import StackCompiler.Proofs.Passes.Invariants

/-!
# Entry loads stay at the top

Entry loads are put before everything else, and no pass puts anything before them.  So a run
makes all of them before it does anything else, and makes each of them once.
-/

namespace StackCompiler.IR

/-- Whether an instruction is an entry load. -/
def Inst.isEntryLoad : Inst → Bool
  | forceLoad _ => true
  | _ => false

namespace Function

variable {f f' : Function}

/-- Only entry loads stand before an entry load. -/
def LoadsFirst (f : Function) : Prop :=
  ∀ q p i j, q < p → f.fetch q = some i → f.fetch p = some j → j.isEntryLoad = true → i.isEntryLoad = true

/-- Entry loads stay first when no instruction becomes one or ceases to be one. -/
theorem LoadsFirst.of_fetch (h : f.LoadsFirst)
    (hsame : ∀ p i', f'.fetch p = some i' → ∃ i, f.fetch p = some i ∧ i.isEntryLoad = i'.isEntryLoad) :
  f'.LoadsFirst
  := by
  intro q p i' j' hlt hi' hj' hload
  obtain ⟨i, hi, heq⟩ := hsame q i' hi'
  obtain ⟨j, hj, heq'⟩ := hsame p j' hj'
  rw [← heq]
  apply h q p i j hlt hi hj
  rw [heq', hload]

/-- Only entry loads stand before an entry load when an instruction is replaced by one that is an
entry load if it was one. -/
theorem LoadsFirst.of_replaced (h : f.LoadsFirst) {pos : Nat} {old new : Inst}
    (hfetch : f.fetch pos = some old)
    (hview : ∀ p, f'.fetch p = if p = pos then some new else f.fetch p)
    (heq : old.isEntryLoad = new.isEntryLoad) :
  f'.LoadsFirst
  := by
  apply h.of_fetch
  intro p i' hi'
  rw [hview] at hi'
  split at hi'
  · rename_i hp
    cases hi'
    exact ⟨old, hp ▸ hfetch, heq⟩
  · exact ⟨i', hi', rfl⟩

/-- Only entry loads stand before an entry load when an instruction is removed. -/
theorem LoadsFirst.remove (h : f.LoadsFirst) (pos : Nat) :
  (f.remove pos).LoadsFirst
  := by
  apply h.of_fetch
  intro p i hi
  exact ⟨i, (fetch_of_fetch_remove hi).1, rfl⟩

/-- Compaction keeps what stands before entry loads. -/
theorem Compacts.loadsFirst_iff {φ : Nat → Nat} (h : f.Compacts f' φ) :
  f'.LoadsFirst ↔ f.LoadsFirst
  := by
  constructor
  · intro hfirst q p i j hlt hi hj
    apply hfirst (φ q) (φ p) i j
    · exact (h.lt_iff hi hj).mpr hlt
    · exact (h.keep q i hi).2
    · exact (h.keep p j hj).2
  · intro hfirst q' p' i j hlt hi hj
    obtain ⟨q, rfl, hq⟩ := h.exists_of_fetch hi
    obtain ⟨p, rfl, hp⟩ := h.exists_of_fetch hj
    exact hfirst q p i j ((h.lt_iff hq hp).mp hlt) hq hp

/-- Forwarding changes code from a store on, and a store is no entry load. -/
theorem LoadsFirst.forwarded (h : f.LoadsFirst) (wf : f.WellFormed) (hp : f.pending = []) {pos : Nat}
    {location src dest : OperandId} (hpair : f.storeThenLoad? pos = some (location, src, dest)) :
  (f.forwarded pos location src dest).LoadsFirst
  := by
  have hview := fetch_forwarded wf hp hpair
  obtain ⟨φ, hφ⟩ := compacts_roomToForward wf hp hpair
  have hroom := hφ.loadsFirst_iff.mp h
  obtain ⟨hstore, -, -⟩ := fetch_roomToForward hp hpair
  have hafter : ∀ p j, pos < p → (f.roomToForward pos location).fetch p = some j → j.isEntryLoad = false := by
    intro p j hlt hj
    cases hload : j.isEntryLoad with
    | false => rfl
    | true => cases hroom pos p _ j hlt hstore hj hload
  intro q p i j hlt hi hj hload
  -- What stands at the load stood there before, so the load comes before the store.
  rw [hview] at hj
  split at hj
  · cases hj
    cases hload
  · split at hj
    · cases hj
      cases hload
    · split at hj
      · cases hj
        cases hload
      · have hle : p ≤ pos := by
          by_contra hgt
          rw [hafter p j (by omega) hj] at hload
          cases hload
        rw [hview, if_neg (by omega), if_neg (by omega), if_neg (by omega)] at hi
        exact hroom q p i j hlt hi hj hload

/-- When code without entry loads is given some at the top, only entry loads stand before them. -/
theorem loadsFirst_withLoads (hp : f.pending = []) (hload : ∀ p x, f.fetch p ≠ some (.forceLoad x))
    (xs : List OperandId) :
  (f.withLoads xs).LoadsFirst
  := by
  intro q p i j hlt hi hj hentry
  have hnone : ∀ p, f.fetch p ≠ some j := by
    intro p hj
    cases j with
    | forceLoad x => exact hload p x hj
    | _ => cases hentry
  rcases fetch_withLoads_cases hp hj with ⟨hp', -⟩ | ⟨p', -, hj'⟩
  · rcases fetch_withLoads_cases hp hi with ⟨-, y, rfl⟩ | ⟨q', rfl, -⟩
    · rfl
    · omega
  · exact absurd hj' (hnone p')

/-- No variable has two entry loads. -/
def LoadsOnce (f : Function) : Prop :=
  ∀ p q x, f.fetch p = some (.forceLoad x) → f.fetch q = some (.forceLoad x) → p = q

/-- There is still one entry load for a variable when no other instruction becomes one. -/
theorem LoadsOnce.of_fetch (h : f.LoadsOnce)
    (hback : ∀ p x, f'.fetch p = some (.forceLoad x) → f.fetch p = some (.forceLoad x)) :
  f'.LoadsOnce
  := fun p q x hp hq => h p q x (hback p x hp) (hback q x hq)

/-- No variable has two entry loads when an instruction is replaced by one that is none. -/
theorem LoadsOnce.of_replaced (h : f.LoadsOnce) {pos : Nat} {new : Inst}
    (hview : ∀ p, f'.fetch p = if p = pos then some new else f.fetch p)
    (hnew : new.isEntryLoad = false) :
  f'.LoadsOnce
  := by
  apply h.of_fetch
  intro p x hx
  rw [hview] at hx
  split at hx
  · cases hx
    cases hnew
  · exact hx

/-- No variable has two entry loads when an instruction is removed. -/
theorem LoadsOnce.remove (h : f.LoadsOnce) (pos : Nat) :
  (f.remove pos).LoadsOnce
  := h.of_fetch fun _ _ hx => (fetch_of_fetch_remove hx).1

/-- Compaction keeps how many entry loads variables have. -/
theorem Compacts.loadsOnce_iff {φ : Nat → Nat} (h : f.Compacts f' φ) :
  f'.LoadsOnce ↔ f.LoadsOnce
  := by
  constructor
  · intro honce p q x hp hq
    exact h.inj hp hq (honce (φ p) (φ q) x (h.keep p _ hp).2 (h.keep q _ hq).2)
  · intro honce p' q' x hp' hq'
    obtain ⟨p, rfl, hp⟩ := h.exists_of_fetch hp'
    obtain ⟨q, rfl, hq⟩ := h.exists_of_fetch hq'
    rw [honce p q x hp hq]

/-- No variable has two entry loads when a stored value is forwarded to the load that follows. -/
theorem LoadsOnce.forwarded (h : f.LoadsOnce) (wf : f.WellFormed) (hp : f.pending = []) {pos : Nat}
    {location src dest : OperandId} (hpair : f.storeThenLoad? pos = some (location, src, dest)) :
  (f.forwarded pos location src dest).LoadsOnce
  := by
  obtain ⟨φ, hφ⟩ := compacts_roomToForward wf hp hpair
  apply (hφ.loadsOnce_iff.mp h).of_fetch
  intro p x hx
  rw [fetch_forwarded wf hp hpair] at hx
  split at hx
  · cases hx
  · split at hx
    · cases hx
    · split at hx
      · cases hx
      · exact hx

/-- When code without entry loads is given one for each of some variables, no variable has two. -/
theorem loadsOnce_withLoads (hp : f.pending = []) (hload : ∀ p x, f.fetch p ≠ some (.forceLoad x))
    {xs : List OperandId} (hxs : xs.Nodup) :
  (f.withLoads xs).LoadsOnce
  := by
  have hmem : ∀ p x, (f.withLoads xs).fetch p = some (.forceLoad x) → xs[p]? = some x := by
    intro p x hx
    rcases fetch_withLoads_cases hp hx with ⟨hlt, -⟩ | ⟨q, -, hq⟩
    · have hget := List.getElem?_eq_getElem hlt
      rw [fetch_withLoads_of_lt hp hget] at hx
      cases hx
      exact hget
    · exact absurd hq (hload q x)
  intro p q x hx hy
  have hpx := hmem p x hx
  have hlt := (List.getElem?_eq_some_iff.mp hpx).1
  exact (List.getElem?_inj hlt hxs).mp (hpx.trans (hmem q x hy).symm)

end Function

open IR.Function

theorem Inst.isEntryLoad_mapUses (r : OperandId → OperandId) (inst : Inst) :
  (inst.mapUses r).isEntryLoad = inst.isEntryLoad
  := by
  cases inst <;> rfl

/-- Every change of a round keeps entry loads at the top. -/
theorem Edit.loadsFirst {f f' : Function} (h : Edit f f') (wf : f.WellFormed) (hfirst : f.LoadsFirst) :
  f'.LoadsFirst
  := by
  cases h with
  | annotate same =>
    apply hfirst.of_fetch
    intro p i hi
    rw [same.fetch_eq] at hi
    exact ⟨i, hi, rfl⟩
  | @fold pos inst dest sources value hfetch hresult =>
    apply hfirst.of_replaced hfetch (fetch_foldedTo hfetch)
    cases inst with
    | forceLoad x => cases hresult
    | _ => rfl
  | specialize hfetch => exact hfirst.of_replaced hfetch (fetch_specialized hfetch) rfl
  | rename hfetch htemp =>
    apply hfirst.of_fetch
    intro p i' hi'
    obtain ⟨i, hi, rfl⟩ := fetch_renamed_eq_some.mp hi'
    exact ⟨i, hi, (i.isEntryLoad_mapUses _).symm⟩
  | erase | eraseAssertion | eraseStore => apply hfirst.remove
  | narrow hfetch =>
    rcases hfetch with hfetch | hfetch
    · exact hfirst.of_replaced hfetch (fetch_replace hfetch _) rfl
    · exact hfirst.of_replaced hfetch (fetch_replace hfetch _) rfl
  | forward hpending hpair => exact hfirst.forwarded wf hpending hpair
  | compact =>
    obtain ⟨φ, hφ⟩ := compacts_compact wf.labels
    exact hφ.loadsFirst_iff.mpr hfirst

/-- No change of a round adds an entry load. -/
theorem Edit.loadsOnce {f f' : Function} (h : Edit f f') (wf : f.WellFormed) (honce : f.LoadsOnce) :
  f'.LoadsOnce
  := by
  cases h with
  | annotate same =>
    apply honce.of_fetch
    intro p x hx
    rwa [same.fetch_eq] at hx
  | fold hfetch => exact honce.of_replaced (fetch_foldedTo hfetch) rfl
  | specialize hfetch => exact honce.of_replaced (fetch_specialized hfetch) rfl
  | rename =>
    apply honce.of_fetch
    intro p x hx
    obtain ⟨i, hi, hmap⟩ := fetch_renamed_eq_some.mp hx
    cases i with
    | forceLoad y =>
      cases hmap
      exact hi
    | _ => cases hmap
  | erase | eraseAssertion | eraseStore => apply honce.remove
  | narrow hfetch =>
    rcases hfetch with hfetch | hfetch
    · exact honce.of_replaced (fetch_replace hfetch _) rfl
    · exact honce.of_replaced (fetch_replace hfetch _) rfl
  | forward hpending hpair => exact honce.forwarded wf hpending hpair
  | compact =>
    obtain ⟨φ, hφ⟩ := compacts_compact wf.labels
    exact hφ.loadsOnce_iff.mpr honce

end StackCompiler.IR
