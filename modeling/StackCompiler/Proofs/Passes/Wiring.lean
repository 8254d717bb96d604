import StackCompiler.Proofs.Passes.Rounds

/-!
# Code stays wired under any passes

A jump needs a label to go to, and the result of a call has to be taken from the return
location before anything else can be left there.  `Wired` says that code has both.  Lowered
code has, every change keeps it so, and so do loads put at the top; with what the marks say of
temps this gives the shape of code after passes in any order.
-/

namespace StackCompiler.IR

/-- Whether an instruction leaves a result in the return location. -/
def Inst.answers : Inst → Bool
  | call _ _ | allocClosure _ _ => true
  | helper .allocRecord | helper (.fieldLoad _ _) | helper (.indexLoad _ _) => true
  | _ => false

/-- Renaming what an instruction reads does not change whether it leaves a result. -/
theorem Inst.answers_mapUses (r : OperandId → OperandId) (inst : Inst) :
  (inst.mapUses r).answers = inst.answers
  := by
  cases inst with
  | helper request => cases request <;> rfl
  | _ => rfl

theorem Inst.answers_of_isPure {inst : Inst} (h : inst.isPure = true) :
  inst.answers = false
  := by
  cases inst <;> first | rfl | cases h

namespace Function

variable {f f' : Function} {pos : Nat}

/-- No instruction stands between two positions. -/
def Adjacent (f : Function) (q p : Nat) : Prop := q < p ∧ ∀ r, q < r → r < p → f.fetch r = none

/-- Jumps go to labels that are there, and a result is taken directly after it is left. -/
structure Wired (f : Function) : Prop where
  target : ∀ p i l, f.fetch p = some i → i.target? = some l → f.Has (.label l)
  answer : ∀ p d x, f.fetch p = some (.assign d x) → f.kind x = .retval →
    ∃ q i, f.Adjacent q p ∧ f.fetch q = some i ∧ i.answers = true

/-! ### Changes in place -/

/-- Code stays wired when what jumps or takes a result did so before, and what leaves a result
stays. -/
theorem InPlace.wired (h : f.InPlace f') (hw : f.Wired)
    (hview : ∀ p i', f'.fetch p = some i' → ∃ i, f.fetch p = some i ∧ i'.target? = i.target? ∧
      ∀ d x, i' = .assign d x → f'.kind x = .retval → i = .assign d x ∧ f.kind x = .retval)
    (hkeep : ∀ p i, f.fetch p = some i → i.answers = true →
      ∃ i', f'.fetch p = some i' ∧ i'.answers = true) :
  f'.Wired
  := by
  constructor
  · intro p i' l hi' hl
    obtain ⟨i, hi, htarget, -⟩ := hview p i' hi'
    obtain ⟨q, hq⟩ := hw.target p i l hi (htarget ▸ hl)
    exact ⟨q, (h.label_iff q l).mpr hq⟩
  · intro p d x hi' hx
    obtain ⟨i, hi, -, htakes⟩ := hview p _ hi'
    obtain ⟨rfl, hx⟩ := htakes d x rfl hx
    obtain ⟨q, j, ⟨hlt, hnone⟩, hj, hanswers⟩ := hw.answer p d x hi hx
    obtain ⟨j', hj', hanswers'⟩ := hkeep q j hj hanswers
    refine ⟨q, j', ⟨hlt, fun r hqr hrp => ?_⟩, hj', hanswers'⟩
    cases hr : f'.fetch r with
    | none => rfl
    | some i' =>
      obtain ⟨i, hi, -⟩ := hview r i' hr
      rw [hnone r hqr hrp] at hi
      cases hi

/-- Instructions that are as before. -/
theorem InPlace.takes_same (h : f.InPlace f') (wf : f.WellFormed) {p : Nat} {i : Inst}
    (hi : f.fetch p = some i) (d x : OperandId) (hinst : i = .assign d x) (hx : f'.kind x = .retval) :
  i = .assign d x ∧ f.kind x = .retval
  := by
  refine ⟨hinst, ?_⟩
  rw [← hx, h.kind_eq x]
  apply (wf.fits p i hi).use_lt
  rw [hinst]
  exact List.mem_singleton.mpr rfl

/-- Code stays wired when an instruction that leaves no result is replaced by one that jumps to
the same label, if any, and takes no result. -/
theorem InPlace.wired_of_replaced (h : f.InPlace f') (wf : f.WellFormed) (hw : f.Wired)
    {old new : Inst} (hold : f.fetch pos = some old)
    (hview : ∀ p, f'.fetch p = if p = pos then some new else f.fetch p)
    (htarget : new.target? = old.target?) (htakes : ∀ d x, new = .assign d x → f'.kind x ≠ .retval)
    (hanswers : old.answers = false) :
  f'.Wired
  := by
  apply h.wired hw
  · intro p i' hi'
    rw [hview] at hi'
    split at hi'
    · rename_i hp
      cases hi'
      exact ⟨old, hp ▸ hold, htarget, fun d x hinst hx => absurd hx (htakes d x hinst)⟩
    · exact ⟨i', hi', rfl, h.takes_same wf hi'⟩
  · intro p i hi hanswer
    refine ⟨i, fetch_kept hview hold hi ?_, hanswer⟩
    rintro rfl
    rw [hanswers] at hanswer
    cases hanswer

/-- Code stays wired when an instruction is removed that is no label and leaves no result. -/
theorem wired_remove (wf : f.WellFormed) (hw : f.Wired) {old : Inst} (hfetch : f.fetch pos = some old)
    (hold : ∀ l, old ≠ .label l) (hanswers : old.answers = false) :
  (f.remove pos).Wired
  := by
  have h := inPlace_remove hfetch hold
  apply h.wired hw
  · intro p i hi
    have hi' := (fetch_of_fetch_remove hi).1
    exact ⟨i, hi', rfl, h.takes_same wf hi'⟩
  · intro p i hi hanswer
    refine ⟨i, fetch_kept (fetch_remove pos) hfetch hi ?_, hanswer⟩
    rintro rfl
    rw [hanswers] at hanswer
    cases hanswer

/-- Whether code is wired depends on the code only. -/
theorem SameCode.wired (h : f.SameCode f') (wf : f.WellFormed) (hw : f.Wired) :
  f'.Wired
  := by
  apply h.inPlace.wired hw
  · intro p i hi
    rw [h.fetch_eq] at hi
    exact ⟨i, hi, rfl, h.inPlace.takes_same wf hi⟩
  · exact fun p i hi hanswer => ⟨i, (h.fetch_eq p).trans hi, hanswer⟩

/-- Shortening a jump keeps code wired. -/
theorem wired_shortened (wf : f.WellFormed) (hw : f.Wired) {l : Label}
    (hfetch : f.fetch pos = some (.jump l)) :
  (f.replace pos (.shortJump l)).Wired
  := by
  have h : f.InPlace (f.replace pos (.shortJump l)) :=
    inPlace_replace hfetch (fun _ => nofun) fun _ => nofun
  exact h.wired_of_replaced wf hw hfetch (fetch_replace hfetch _) rfl (fun _ _ => nofun) rfl

/-- Renaming a temp to another keeps code wired. -/
theorem wired_renamed (hw : f.Wired) {t s : OperandId} (hs : f.isTemp s = true) :
  (f.renamed t s).Wired
  := by
  have h := f.inPlace_renamed t s
  apply h.wired hw
  · intro p i' hi'
    obtain ⟨i, hi, rfl⟩ := fetch_renamed_eq_some.mp hi'
    refine ⟨i, hi, Inst.target?_mapUses _ i, ?_⟩
    intro d x hinst hx
    cases i <;> cases hinst
    rename_i y
    change f.kind (substitute t s y) = .retval at hx
    by_cases hyt : y = t
    · -- What is read in the place of the copy is a temp.
      obtain ⟨n, hn⟩ := isTemp_iff.mp hs
      rw [hyt, show substitute t s t = s from if_pos rfl, hn] at hx
      cases hx
    · rw [show substitute t s y = y from if_neg hyt] at hx ⊢
      exact ⟨rfl, hx⟩
  · intro p i hi hanswer
    exact ⟨_, fetch_renamed_eq_some.mpr ⟨i, hi, rfl⟩, (Inst.answers_mapUses _ i).trans hanswer⟩

/-! ### Changes that move code -/

/-- Two instructions that stay are next to each other after compaction exactly if they were
before. -/
theorem Compacts.adjacent_iff {φ : Nat → Nat} (h : f.Compacts f' φ) {q p : Nat} {i j : Inst}
    (hq : f.fetch q = some i) (hp : f.fetch p = some j) :
  f'.Adjacent (φ q) (φ p) ↔ f.Adjacent q p
  := by
  constructor
  · rintro ⟨hlt, hnone⟩
    refine ⟨(h.lt_iff hq hp).mp hlt, fun r hqr hrp => ?_⟩
    cases hr : f.fetch r with
    | none => rfl
    | some k =>
      have := hnone (φ r) ((h.lt_iff hq hr).mpr hqr) ((h.lt_iff hr hp).mpr hrp)
      rw [(h.keep r k hr).2] at this
      cases this
  · rintro ⟨hlt, hnone⟩
    refine ⟨(h.lt_iff hq hp).mpr hlt, fun r hqr hrp => ?_⟩
    cases hr : f'.fetch r with
    | none => rfl
    | some k =>
      obtain ⟨r, rfl, hr'⟩ := h.exists_of_fetch hr
      rw [hnone r ((h.lt_iff hq hr').mp hqr) ((h.lt_iff hr' hp).mp hrp)] at hr'
      cases hr'

/-- Code is wired after compaction exactly if it was before. -/
theorem Compacts.wired_iff {φ : Nat → Nat} (h : f.Compacts f' φ) :
  f'.Wired ↔ f.Wired
  := by
  constructor
  · intro hw
    constructor
    · intro p i l hi hl
      obtain ⟨q, hq⟩ := hw.target _ i l (h.keep p i hi).2 hl
      obtain ⟨q, -, hq⟩ := h.exists_of_fetch hq
      exact ⟨q, hq⟩
    · intro p d x hi hx
      obtain ⟨q, j, hadj, hj, hanswer⟩ := hw.answer _ d x (h.keep p _ hi).2 ((h.kind_eq x).trans hx)
      obtain ⟨q, rfl, hq⟩ := h.exists_of_fetch hj
      exact ⟨q, j, (h.adjacent_iff hq hi).mp hadj, hq, hanswer⟩
  · intro hw
    constructor
    · intro p i l hi hl
      obtain ⟨p, rfl, hp⟩ := h.exists_of_fetch hi
      obtain ⟨q, hq⟩ := hw.target p i l hp hl
      exact ⟨_, (h.keep q _ hq).2⟩
    · intro p d x hi hx
      obtain ⟨p, rfl, hp⟩ := h.exists_of_fetch hi
      obtain ⟨q, j, hadj, hj, hanswer⟩ := hw.answer p d x hp ((h.kind_eq x).symm.trans hx)
      exact ⟨_, j, (h.adjacent_iff hj hp).mpr hadj, (h.keep q j hj).2, hanswer⟩

/-- Forwarding puts a store between a store and a load, and nothing else moves apart. -/
theorem adjacent_forwarded (wf : f.WellFormed) (hp : f.pending = []) {location src dest : OperandId}
    (hpair : f.storeThenLoad? pos = some (location, src, dest)) {q p : Nat} (hq : q ≠ pos)
    (hadj : (f.roomToForward pos location).Adjacent q p) :
  (f.forwarded pos location src dest).Adjacent q p
  := by
  obtain ⟨hr₀, -, hr₂⟩ := fetch_roomToForward hp hpair
  obtain ⟨hlt, hnone⟩ := hadj
  refine ⟨hlt, fun r hqr hrp => ?_⟩
  have hr := hnone r hqr hrp
  rw [fetch_forwarded wf hp hpair, if_neg, if_neg, if_neg, hr]
  · rintro rfl
    rw [hr₂] at hr
    cases hr
  · rintro rfl
    rw [hnone pos (by omega) (by omega)] at hr₀
    cases hr₀
  · rintro rfl
    rw [hr₀] at hr
    cases hr

/-- An instruction other than the store and the load stays where it is. -/
theorem fetch_forwarded_of_ne (wf : f.WellFormed) (hp : f.pending = []) {location src dest : OperandId}
    (hpair : f.storeThenLoad? pos = some (location, src, dest)) {q : Nat} {i : Inst}
    (hi : (f.roomToForward pos location).fetch q = some i) (hstore : i ≠ .store location src)
    (hload : i ≠ .assign dest location) :
  q ≠ pos ∧ (f.forwarded pos location src dest).fetch q = some i
  := by
  obtain ⟨hr₀, hr₁, hr₂⟩ := fetch_roomToForward hp hpair
  have h₀ : q ≠ pos := by
    rintro rfl
    rw [hr₀] at hi
    cases hi
    exact hstore rfl
  refine ⟨h₀, ?_⟩
  rw [fetch_forwarded wf hp hpair, if_neg h₀, if_neg, if_neg, hi]
  · rintro rfl
    rw [hr₂] at hi
    cases hi
    exact hload rfl
  · rintro rfl
    rw [hr₁] at hi
    cases hi

/-- Neither the store nor the load of a forwarded value has to do with the return location. -/
theorem wired_forwarded (wf : f.WellFormed) (hw : f.Wired) (hp : f.pending = [])
    {location src dest : OperandId} (hpair : f.storeThenLoad? pos = some (location, src, dest)) :
  (f.forwarded pos location src dest).Wired
  := by
  have h := inPlace_forwarded wf hp hpair
  have wfr := wellFormed_roomToForward wf hp hpair
  obtain ⟨φ, hφ⟩ := compacts_roomToForward wf hp hpair
  have hwr := hφ.wired_iff.mp hw
  have hview : ∀ p, (f.forwarded pos location src dest).fetch p = _ := fetch_forwarded wf hp hpair
  constructor
  · intro p i l hi hl
    rw [hview] at hi
    split at hi
    · cases hi
      cases hl
    · split at hi
      · cases hi
        cases hl
      · split at hi
        · cases hi
          cases hl
        · obtain ⟨q, hq⟩ := hwr.target p i l hi hl
          exact ⟨q, (h.label_iff q l).mpr hq⟩
  · intro p d x hi hx
    rw [hview] at hi
    split at hi
    · cases hi
    · rename_i hp₀
      split at hi
      · cases hi
      · rename_i hp₁
        split at hi
        · cases hi
          obtain ⟨n, hn⟩ := isTemp_iff.mp (isTemp_of_new wf hp hpair (.inr rfl)).2
          rw [hn] at hx
          cases hx
        · obtain ⟨-, hx⟩ := h.takes_same wfr hi d x rfl hx
          obtain ⟨q, j, hadj, hj, hanswer⟩ := hwr.answer p d x hi hx
          -- What leaves the result is neither the store nor the load.
          obtain ⟨hq, hj'⟩ := fetch_forwarded_of_ne wf hp hpair hj (by rintro rfl; cases hanswer)
            (by rintro rfl; cases hanswer)
          exact ⟨q, j, adjacent_forwarded wf hp hpair hq hadj, hj', hanswer⟩

/-- Positions next to each other stay so when a load is put at the top. -/
theorem adjacent_loaded (hp : f.pending = []) {x : OperandId} {q p : Nat} (hadj : f.Adjacent q p) :
  (f.inserted 0 (.forceLoad x)).Adjacent (q + 1) (p + 1)
  := by
  refine ⟨Nat.succ_lt_succ hadj.1, fun r hqr hrp => ?_⟩
  obtain ⟨r, rfl⟩ := Nat.exists_eq_add_one_of_ne_zero (Nat.ne_zero_of_lt hqr)
  rw [fetch_loaded_succ hp]
  exact hadj.2 r (Nat.lt_of_succ_lt_succ hqr) (Nat.lt_of_succ_lt_succ hrp)

/-- A load put at the top keeps code wired. -/
theorem wired_loaded (hw : f.Wired) (hp : f.pending = []) {x : OperandId} :
  (f.inserted 0 (.forceLoad x)).Wired
  := by
  constructor
  · intro p i l hi hl
    rcases fetch_loaded_cases hp hi with ⟨-, rfl⟩ | ⟨p, rfl, hi'⟩
    · cases hl
    · obtain ⟨q, hq⟩ := hw.target p i l hi' hl
      exact ⟨q + 1, (fetch_loaded_succ hp q).trans hq⟩
  · intro p d y hi hy
    rcases fetch_loaded_cases hp hi with ⟨-, hload⟩ | ⟨p, rfl, hi'⟩
    · cases hload
    · obtain ⟨q, j, hadj, hj, hanswer⟩ := hw.answer p d y hi' hy
      exact ⟨q + 1, j, adjacent_loaded hp hadj, (fetch_loaded_succ hp q).trans hj, hanswer⟩

/-- Loads put at the top keep code wired. -/
theorem wired_withLoads (hw : f.Wired) (hp : f.pending = []) (xs : List OperandId) :
  (f.withLoads xs).Wired
  := by
  induction xs with
  | nil => exact hw
  | cons x xs ih => exact wired_loaded ih ((pending_withLoads f xs).trans hp)

end Function

open IR.Function

/-- Every change of a well-formed function keeps it wired: jumps have their labels and results are
taken directly. -/
theorem Edit.wired {f f' : Function} (h : Edit f f') (wf : f.WellFormed) (hw : f.Wired) :
  f'.Wired
  := by
  cases h with
  | annotate same => exact same.wired wf hw
  | fold hfetch hresult =>
    have hinst := foldInst?_eq_some hresult
    have hlabel := (defs_of_foldInst? hresult).2.2
    apply (inPlace_foldedTo hfetch hlabel).wired_of_replaced wf hw hfetch (fetch_foldedTo hfetch)
    · rcases hinst with ⟨_, _, _, _, _, rfl, -⟩ | ⟨_, _, _, rfl, -⟩ <;> rfl
    · intro d x hassign hx
      cases hassign
      rw [kind_foldedTo_size] at hx
      cases hx
    · rcases hinst with ⟨_, _, _, _, _, rfl, -⟩ | ⟨_, _, _, rfl, -⟩ <;> rfl
  | specialize hfetch =>
    exact (inPlace_specialized hfetch).wired_of_replaced wf hw hfetch (fetch_specialized hfetch)
      rfl (fun _ _ => nofun) rfl
  | rename hfetch htemp => exact wired_renamed hw htemp
  | erase hfetch hpure =>
    apply wired_remove wf hw hfetch ?_ (Inst.answers_of_isPure hpure)
    rintro l rfl
    cases hpure
  | eraseAssertion hfetch => exact wired_remove wf hw hfetch (fun _ => nofun) rfl
  | narrow hfetch =>
    obtain ⟨a, b, hold, -, hplace⟩ := exists_fork hfetch
    apply hplace.wired_of_replaced wf hw hold (fetch_replace hold _) rfl ?_ rfl
    intro d x hassign hx
    cases hassign
    -- What a fork copies is a temp.
    obtain ⟨n, hn⟩ := isTemp_iff.mp (wf.isTemp_of_uses hold (List.mem_singleton.mpr rfl) fun _ => nofun)
    exact absurd (hn.symm.trans hx) nofun
  | eraseStore hfetch => exact wired_remove wf hw hfetch (fun _ => nofun) rfl
  | forward hpending hpair => exact wired_forwarded wf hw hpending hpair
  | compact =>
    obtain ⟨φ, hφ⟩ := compacts_compact wf.labels
    exact hφ.wired_iff.mpr hw

/-- All changes that passes make keep code wired. -/
theorem Edits.wired {f f' : Function} (h : Edits f f') (wf : f.WellFormed) (hw : f.Wired) :
  f'.Wired
  := by
  induction h with
  | refl => exact hw
  | tail hedits hstep ih => exact hstep.wired (Edits.wellFormed hedits wf) ih

/-! ### Lowered code -/

namespace Lowering

variable {f : Bytecode.Function} {g : Function}

/-- An operation takes a result from the return location only after the instruction that
leaves it. -/
theorem Emission.answer {s s' : Lowering} {operation : Operation} {operand dest dest' : OperandId}
    {insts : List Inst} (h : Emission s operation s' operand dest dest' insts)
    (hregular : operation.Regular) {j : Nat} {d x : OperandId} (hj : insts[j]? = some (.assign d x))
    (hx : s'.func.kind x = .retval) :
  ∃ k i, j = k + 1 ∧ insts[k]? = some i ∧ i.answers = true
  := by
  obtain ⟨rfl, kind, hkind⟩ := (h.places (List.mem_of_getElem? hj)).1 d x rfl
  rw [(h.operand_kind kind hkind).2] at hx
  subst hx
  -- What is taken comes second, after the request that leaves it.
  have htwo : ∀ i : Inst, i.answers = true → insts = [i, .assign dest x] →
      ∃ k i, j = k + 1 ∧ insts[k]? = some i ∧ i.answers = true := by
    rintro i hanswer rfl
    match j with
    | 0 =>
      cases hj
      cases hanswer
    | 1 => exact ⟨0, i, rfl, rfl, hanswer⟩
    | j + 2 => cases hj
  have hemits := h.emits
  generalize s'.stack = st' at hemits
  generalize s.stack = st at hemits
  cases hemits with
  | allocRecord | fieldLoad | indexLoad | allocClosure | call => exact htwo _ rfl rfl
  | load | store =>
    cases hkind
    exact hregular.elim
  | _ => cases hkind

/-- Lowered code is wired. -/
theorem wired_lower (h : lower f = .ok g) :
  g.Wired
  := by
  obtain ⟨s, hs, rfl, htargets⟩ := lower_eq_ok h
  constructor
  · intro p i l hi hl
    obtain ⟨q, hq⟩ := htargets p i l hi hl
    exact ⟨q, (at?_labels_lower h l q).mp hq⟩
  · intro p d x hi hx
    obtain ⟨k, hk, hc⟩ := exists_covers (Nat.le_refl _) hs (Function.lt_size_of_fetch hi)
    obtain ⟨i, r, r', operation, operand, dest, dest', insts, hget, hr, hr', hle, hlt, ho, hem, hj⟩ :=
      emission_of_covers h hk hc hi
    have hregular := Operation.regular_ofInstruction ho
    obtain ⟨rfl, kind, hkind⟩ := (hem.places (List.mem_of_getElem? hj)).1 d x rfl
    obtain ⟨rest, hext⟩ := extends_lower h (Nat.succ_le_of_lt hk) hr'
    rw [hext.kind_eq (hem.operand_kind kind hkind).1] at hx
    obtain ⟨m, i', hm, hi', hanswer⟩ := hem.answer hregular hj hx
    refine ⟨r.func.size + m, i', ⟨by omega, fun q hlt hq => by omega⟩, ?_, hanswer⟩
    exact fetch_emission h hk hr' hem hi'

end Lowering

/-! ### Calls of passes -/

namespace State

variable {s s' : State}

/-- The marks of a state are right and its code is wired. -/
structure Orderly (s : State) : Prop extends s.Settled where
  wired : s.func.Wired

/-- States stay orderly along the changes that passes make. -/
theorem Reaches.orderly (h : s.Reaches s') (hs : s.Orderly) :
  s'.Orderly
  := ⟨h.settled, Edits.wired h.edits hs.obsolete.wellFormed hs.wired⟩

/-- Lowered code is orderly as long as nothing is marked obsolete. -/
theorem orderly_lower {f : Bytecode.Function} {g : Function} (h : lower f = .ok g) {ctx : Context}
    (hctx : ctx.obsolete = []) :
  State.Orderly ⟨g, ctx⟩
  := ⟨settled_lower h hctx, Lowering.wired_lower h⟩

/-- Trying to shorten the jump at a position keeps the state orderly, and leaves other positions
as they were. -/
theorem orderly_shortenAt (h : s.Orderly) {pos : Nat} {inst : Inst}
    (hfetch : s.func.fetch pos = some inst) :
  (Attempt.state (s.shortenAt (pos, inst))).Orderly ∧
    ∀ p, p ≠ pos → (Attempt.state (s.shortenAt (pos, inst))).func.fetch p = s.func.fetch p
  := by
  rcases s.shortenAt_cases pos inst with hsame | ⟨l, target, stats, rfl, -, -, hshort⟩
  · rw [hsame]
    exact ⟨h, fun _ _ => rfl⟩
  · rw [hshort]
    obtain ⟨hobsolete, hpending⟩ := settled_shortened h.toSettled hfetch
    refine ⟨⟨⟨hobsolete, hpending⟩, wired_shortened h.obsolete.wellFormed h.wired hfetch⟩, ?_⟩
    exact fun p hp => (fetch_replace hfetch _ p).trans (if_neg hp)

/-- The sweep with the compaction after it keeps a state orderly. -/
theorem orderly_sweep (h : s.Orderly) :
  s.sweep.compact.Orderly
  := by
  obtain ⟨hedits, hsettled⟩ := settled_sweep h.obsolete
  exact Reaches.orderly ⟨hedits, hsettled⟩ h

/-- A call of a pass keeps a state in order, also if it stops with an error. -/
theorem orderly_run (h : s.Orderly) (p : PassName) :
  (p.run s).state.Orderly
  := by
  have hrun : (Attempt.state (p.pass s)).Orderly → (p.run s).state.Orderly := by
    unfold PassName.run Pass.run
    intro hpass
    cases hs : p.pass s with
    | error stopped =>
      rw [hs] at hpass
      exact hpass
    | ok s₁ =>
      rw [hs] at hpass
      exact orderly_sweep hpass
  by_cases hload : p = .loadVars
  · subst hload
    apply hrun
    obtain ⟨hloads, hsettled⟩ := settled_loadVars h.toSettled
    change (Attempt.state (IR.loadVars s)).Orderly
    rw [hloads]
    exact ⟨hsettled, wired_withLoads h.wired h.pending _⟩
  · by_cases hshort : p = .shortJumps
    · subst hshort
      apply hrun
      exact holds_foldlM_live shortenAt (fun _ _ _ hs hfetch => orderly_shortenAt hs hfetch) h
    · exact (PassName.reaches_run hload hshort h.toSettled).orderly h

/-- Any sequence of passes keeps a state orderly, even where a pass stops early. -/
theorem orderly_callAll (h : s.Orderly) (passes : List PassName) :
  (s.callAll passes).Orderly
  := by
  unfold callAll
  induction passes generalizing s with
  | nil => exact h
  | cons p passes ih => exact ih (orderly_run h p)

/-- If a sequence of passes succeeds, its first pass does, and then the others do. -/
theorem runAll_cons_eq_ok {p : PassName} {passes : List PassName}
    (h : s.runAll (p :: passes) = .ok s') :
  ∃ s₁, p.run s = .ok s₁ ∧ s₁.runAll passes = .ok s'
  := by
  unfold runAll at h
  rw [List.foldlM_cons] at h
  exact Attempt.bind_eq_ok h

/-- Passes that all succeed leave the state that they return. -/
theorem callAll_of_runAll {passes : List PassName} (h : s.runAll passes = .ok s') :
  s.callAll passes = s'
  := by
  induction passes generalizing s with
  | nil =>
    cases h
    rfl
  | cons p passes ih =>
    obtain ⟨s₁, hrun, hrest⟩ := runAll_cons_eq_ok h
    rw [← ih hrest]
    unfold callAll
    rw [List.foldl_cons, hrun]
    rfl

/-- After a pass that succeeds nothing is marked obsolete. -/
theorem obsolete_of_run {p : PassName} (h : p.run s = .ok s') :
  s'.ctx.obsolete = []
  := by
  obtain ⟨s₁, -, hsweep⟩ := Attempt.bind_eq_ok h
  cases hsweep
  rfl

/-- After passes that succeed nothing is marked obsolete, if nothing was at the start. -/
theorem obsolete_of_runAll {passes : List PassName} (h : s.runAll passes = .ok s')
    (hs : s.ctx.obsolete = []) :
  s'.ctx.obsolete = []
  := by
  induction passes generalizing s with
  | nil =>
    cases h
    exact hs
  | cons p passes ih =>
    obtain ⟨s₁, hrun, hrest⟩ := runAll_cons_eq_ok h
    exact ih hrest (obsolete_of_run hrun)

end State

/-! ### The shape of code -/

namespace Function

variable {f : Function}

/-- A slot of an instruction that is no assertion reads an operand. -/
def ConsumesAt (f : Function) (pos slot : Nat) (t : OperandId) : Prop :=
  ∃ inst, f.fetch pos = some inst ∧ (∀ kind arg, inst ≠ .assertion kind arg) ∧ inst.uses[slot]? = some t

/-- Code as the passes find and leave it. -/
structure InOrder (f : Function) : Prop where
  /-- A temp that is read has one definition, which comes before. -/
  defined : ∀ p t, f.ReadsAt p t → f.isTemp t = true → ∃ q, q < p ∧ ∀ q', f.DefinesAt q' t ↔ q' = q
  /-- Assertions apart, one slot reads a temp. -/
  consumed : ∀ t p q j k, f.isTemp t = true → f.ConsumesAt p j t → f.ConsumesAt q k t → p = q ∧ j = k
  /-- A result is taken directly after the instruction that leaves it. -/
  answered : ∀ p d x, f.fetch p = some (.assign d x) → f.kind x = .retval →
    ∃ q i, p = q + 1 ∧ f.fetch q = some i ∧ i.answers = true
  /-- A label stands at one position. -/
  labelled : ∀ l p q, f.fetch p = some (.label l) → f.fetch q = some (.label l) → p = q
  /-- The label table gives the positions of labels. -/
  indexed : ∀ l p, f.labels.at? l = some p ↔ f.fetch p = some (.label l)
  /-- A jump goes to a label of the table. -/
  target : ∀ p i l, f.fetch p = some i → i.target? = some l → ∃ q, f.labels.at? l = some q

/-- In linear code without obsolete operands, assertions apart, one slot of one instruction reads
a temp. -/
theorem Linear.consumed (h : f.Linear []) {t : OperandId} {p q j k : Nat} (ht : f.isTemp t = true)
    (hp : f.ConsumesAt p j t) (hq : f.ConsumesAt q k t) :
  p = q ∧ j = k
  := by
  have hle : ∀ {p q j k}, f.ConsumesAt p j t → f.ConsumesAt q k t → q ≤ p := by
    rintro p q j k ⟨i, hi, hassert, hj⟩ ⟨i', hi', -, hk⟩
    refine h.last p q i t hi (List.mem_of_getElem? hj) ht ?_ ⟨i', hi', List.mem_of_getElem? hk⟩
    rintro (⟨kind, hkind⟩ | ⟨d, hd, -⟩)
    · exact hassert kind t hkind
    · cases hd
  obtain rfl := Nat.le_antisymm (hle hq hp) (hle hp hq)
  obtain ⟨i, hi, -, hj⟩ := hp
  obtain ⟨i', hi', -, hk⟩ := hq
  rw [hi] at hi'
  cases hi'
  have hlt := (List.getElem?_eq_some_iff.mp hj).1
  exact ⟨rfl, (List.getElem?_inj hlt (h.once p i hi)).mp (hj.trans hk.symm)⟩

/-- Well-formed, linear and wired code without marks is in order. -/
theorem inOrder_of_wired (wf : f.WellFormed) (hlinear : f.Linear []) (hw : f.Wired)
    (hp : f.pending = []) :
  f.InOrder
  := by
  constructor
  · intro p t hread ht
    obtain ⟨q, hlt, hdef⟩ := wf.defined p t hread ht
    refine ⟨q, hlt, fun q' => ⟨fun hdef' => wf.single q' q t hdef' hdef, ?_⟩⟩
    rintro rfl
    exact hdef
  · exact fun t p q j k => hlinear.consumed
  · intro p d x hi hx
    obtain ⟨q, i, ⟨hlt, hnone⟩, hq, hanswer⟩ := hw.answer p d x hi hx
    refine ⟨q, i, Nat.le_antisymm ?_ hlt, hq, hanswer⟩
    -- Without removed positions there is an instruction at every position of the code.
    by_contra hgt
    have hq₁ := hnone (q + 1) (Nat.lt_succ_self q) (by omega)
    have := lt_size_of_fetch hi
    rw [fetch_of_pending_nil hp, Array.getElem?_eq_none_iff] at hq₁
    unfold size at this
    omega
  · intro l p q hl hl'
    have hat := (wf.labels l p).mpr hl
    rw [(wf.labels l q).mpr hl'] at hat
    exact (Option.some.inj hat).symm
  · exact wf.labels
  · intro p i l hi hl
    obtain ⟨q, hq⟩ := hw.target p i l hi hl
    exact ⟨q, (wf.labels l q).mpr hq⟩

end Function

/-- Whatever passes run over lowered code, the code that they leave is in order, without
removed positions and without marks. -/
theorem inOrder_runAll {f : Bytecode.Function} {g : Function} (hlower : lower f = .ok g)
    {ctx : Context} (hctx : ctx.obsolete = []) {passes : List PassName} {s : State}
    (hrun : State.runAll ⟨g, ctx⟩ passes = .ok s) :
  s.func.pending = [] ∧ s.ctx.obsolete = [] ∧ s.func.InOrder
  := by
  have horderly := State.orderly_callAll (State.orderly_lower hlower hctx) passes
  rw [State.callAll_of_runAll hrun] at horderly
  have hmarks := State.obsolete_of_runAll hrun hctx
  have hobsolete := horderly.obsolete
  rw [hmarks] at hobsolete
  exact ⟨horderly.pending, hmarks,
    inOrder_of_wired hobsolete.wellFormed hobsolete.linear horderly.wired horderly.pending⟩

/-- Calls of passes in another order than the optimizer's change a loop that counts down, and
leave its code in order. -/
theorem inOrder_runAll_countdown :
  ∃ g s, lower .countdown = .ok g ∧
    State.runAll ⟨g, { options := {} }⟩
      [.forwardStores, .deadTemps, .loadVars, .propagateTypes, .sweep, .deadStores, .shortJumps] = .ok s ∧
    s.func.code ≠ g.code ∧ s.func.pending = [] ∧ s.ctx.obsolete = [] ∧ s.func.InOrder
  := by
  have hok : (lower .countdown).isOk = true := by decide +kernel
  obtain ⟨g, hg⟩ := exists_eq_ok hok
  have hpasses : (match lower .countdown with
      | .error _ => false
      | .ok g =>
        match State.runAll ⟨g, { options := {} }⟩
          [.forwardStores, .deadTemps, .loadVars, .propagateTypes, .sweep, .deadStores, .shortJumps] with
        | .error _ => false
        | .ok s => s.func.code != g.code) = true := by
    decide +kernel
  rw [hg] at hpasses
  dsimp only at hpasses
  split at hpasses
  · cases hpasses
  · rename_i s hs
    exact ⟨g, s, hg, hs, bne_iff_ne.mp hpasses, inOrder_runAll hg rfl hs⟩

end StackCompiler.IR
