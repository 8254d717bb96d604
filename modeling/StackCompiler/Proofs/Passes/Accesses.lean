import StackCompiler.Proofs.Passes.Paths

/-!
# Accesses lie in intervals

`TouchesAt` says that an instruction reads, defines, stores to or loads an operand.  After any calls
of passes on lowered code, the interval of a temp or a variable lies in the code and holds every
position at which it is touched; that of a temp that nothing reads is its definition alone; and what
is not touched has no interval.

Where intervals reach is known from `Covers` and `StartsRight`.  What is added here is that no end
lies behind the code: a visit moves ends to its own position only.
-/

namespace StackCompiler.IR

/-- The operands that an instruction reads, defines, stores to or loads. -/
def Inst.touched (inst : Inst) : List OperandId :=
  inst.defs ++ inst.uses ++ match inst with
    | store dest _ => [dest]
    | forceLoad var => [var]
    | _ => []

/-- What an instruction touches is what it defines, reads, loads on entry or stores to. -/
theorem Inst.mem_touched {inst : Inst} {x : OperandId} :
  x ∈ inst.touched ↔ (x ∈ inst.defs ∨ x ∈ inst.uses) ∨ inst = .forceLoad x ∨ ∃ s, inst = .store x s
  := by
  unfold touched
  rw [List.mem_append, List.mem_append]
  apply or_congr_right
  cases inst with
  | store dest src => simp [eq_comm]
  | forceLoad var => simp [eq_comm]
  | _ => simp

/-! ### Ends of intervals -/

namespace Operand

variable {o : Operand} {pos p : Nat}

/-- A write moves the end of an interval to its position, or leaves it. -/
theorem liveEnd_writtenAt (h : (o.writtenAt pos).liveEnd = some p) :
  p = pos ∨ o.liveEnd = some p
  := by
  have hend : some (o.liveEnd.getD pos) = some p := h
  cases hstop : o.liveEnd with
  | none =>
    rw [hstop] at hend
    exact .inl (Option.some.inj hend).symm
  | some stop =>
    rw [hstop] at hend
    exact .inr hend

/-- An extension to a position moves the end of an interval there, or leaves it. -/
theorem liveEnd_extendedTo (h : (o.extendedTo pos).liveEnd = some p) :
  p = pos ∨ o.liveEnd = some p
  := by
  obtain ⟨stop, hstop, hmax⟩ := Option.map_eq_some_iff.mp h
  rcases Nat.le_total stop pos with hle | hle
  · rw [Nat.max_eq_right hle] at hmax
    exact .inl hmax.symm
  · rw [Nat.max_eq_left hle] at hmax
    exact .inr (hmax ▸ hstop)

end Operand

namespace Function

variable {f f' g g' : Function} {pos p : Nat} {inst : Inst} {x : OperandId}

/-- A change of one operand that moves ends to a position only. -/
theorem liveEnd_modify {y : OperandId} {change : Operand → Operand}
    (hchange : ∀ o p, (change o).liveEnd = some p → p = pos ∨ o.liveEnd = some p)
    (h : ((g.modify y change).operand x).liveEnd = some p) :
  p = pos ∨ (g.operand x).liveEnd = some p
  := by
  have hone : (([y].foldl (fun f id => f.modify id change) g).operand x).liveEnd = some p := h
  rcases bound_modifyAll Operand.liveEnd hchange hone with h | ⟨-, h⟩
  · exact .inr h
  · exact .inl h

/-- A visit for temps moves ends to its position only. -/
theorem liveEnd_visitTemps (h : ((g.visitTemps (pos, inst)).operand x).liveEnd = some p) :
  p = pos ∨ (g.operand x).liveEnd = some p
  := by
  have hdefine : ∀ o : Operand, (o.definedAt pos).liveEnd = o.liveEnd := fun _ => rfl
  unfold visitTemps at h
  rw [bound_modifyAll_eq hdefine] at h
  rcases bound_modifyAll Operand.liveEnd (fun o p => liveEnd_readAt) h with h | ⟨-, h⟩
  · exact .inr h
  · exact .inl h

/-- A jump back moves ends to its position only. -/
theorem liveEnd_extendLoop {target : Nat} (h : ((g.extendLoop target pos).operand x).liveEnd = some p) :
  p = pos ∨ (g.operand x).liveEnd = some p
  := by
  rcases bound_modifyAll Operand.liveEnd (fun o p => Operand.liveEnd_extendedTo) h with h | ⟨-, h⟩
  · exact .inr h
  · exact .inl h

/-- A visit for variables moves ends to its position only. -/
theorem liveEnd_visitVars (hvisit : g.visitVars (pos, inst) = .ok g')
    (h : (g'.operand x).liveEnd = some p) :
  p = pos ∨ (g.operand x).liveEnd = some p
  := by
  obtain rfl | ⟨d, y, -, -, rfl⟩ | ⟨y, -, rfl⟩ | ⟨target, rfl⟩ := visitVars_cases hvisit
  · exact .inr h
  · exact liveEnd_modify (fun o p => liveEnd_readAt (o := o.definedAt pos)) h
  · exact liveEnd_modify (fun o p => Operand.liveEnd_writtenAt) h
  · exact liveEnd_extendLoop h

/-- A visit for writes moves ends to its position only. -/
theorem liveEnd_coverWrite (h : ((g.coverWrite (pos, inst)).operand x).liveEnd = some p) :
  p = pos ∨ (g.operand x).liveEnd = some p
  := by
  cases inst with
  | store y s =>
    simp only [coverWrite] at h
    split at h
    · exact liveEnd_modify (fun o p => Operand.liveEnd_extendedTo) h
    · exact .inr h
  | forceLoad y => exact liveEnd_modify (fun o p => Operand.liveEnd_extendedTo) h
  | _ => exact .inr h

/-- Intervals end in the code. -/
theorem liveEnd_lt_size (h : f.intervals = .ok f') {stop : Nat}
    (hstop : (f'.operand x).liveEnd = some stop) :
  stop < f.size
  := by
  suffices hends : ∀ x stop, (f'.operand x).liveEnd = some stop → stop < f.size from hends x stop hstop
  refine intervals_induction
    (P := fun g => ∀ x stop, (g.operand x).liveEnd = some stop → stop < f.size) ?_ ?_ ?_ ?_ h
  · intro x stop hstop
    rw [operand_clearIntervals] at hstop
    cases hstop
  · intro g pos inst hg hfetch x stop hstop
    rcases liveEnd_visitTemps hstop with rfl | hstop
    · exact lt_size_of_fetch hfetch
    · exact hg x stop hstop
  · intro g g' pos inst hg hfetch hvisit x stop hstop
    rcases liveEnd_visitVars hvisit hstop with rfl | hstop
    · exact lt_size_of_fetch hfetch
    · exact hg x stop hstop
  · intro g pos inst hg hfetch x stop hstop
    rcases liveEnd_coverWrite hstop with rfl | hstop
    · exact lt_size_of_fetch hfetch
    · exact hg x stop hstop

/-! ### Accesses -/

/-- A position at which an instruction reads, defines, stores to or loads an operand. -/
def TouchesAt (f : Function) (p : Nat) (x : OperandId) : Prop :=
  ∃ i, f.fetch p = some i ∧ x ∈ i.touched

/-- A temp is touched where it is defined and where it is read. -/
theorem TouchesAt.of_isTemp (wf : f.WellFormed) (h : f.TouchesAt p x) (hx : f.isTemp x = true) :
  f.DefinesAt p x ∨ f.ReadsAt p x
  := by
  obtain ⟨i, hi, hmem⟩ := h
  rcases Inst.mem_touched.mp hmem with (hdef | huse) | rfl | ⟨s, rfl⟩
  · exact .inl ⟨i, hi, hdef⟩
  · exact .inr ⟨i, hi, huse⟩
  · exact absurd hi (wf.fetch_ne_forceLoad hx p)
  · rw [isTemp_eq_false ((wf.fits p _ hi).store_place x s rfl).2] at hx
    cases hx

/-- A variable is touched where it is read by an assignment, stored to or loaded. -/
theorem TouchesAt.of_isVar (wf : f.WellFormed) (h : f.TouchesAt p x) (hx : f.isVar x = true) :
  f.AccessesAt p x
  := by
  obtain ⟨i, hi, hmem⟩ := h
  have htemp : f.isTemp x ≠ true := by
    intro htemp
    rw [isVar_eq_false htemp] at hx
    cases hx
  rcases Inst.mem_touched.mp hmem with (hdef | huse) | hload | hstore
  · exact absurd ((wf.fits p i hi).def_temp x hdef).2 htemp
  · exact ⟨i, hi, .inl (((wf.fits p i hi).use_temp x huse).resolve_left htemp)⟩
  · exact ⟨i, hi, .inr (.inl hload)⟩
  · exact ⟨i, hi, .inr (.inr hstore)⟩

/-- An instruction touches what it accesses. -/
theorem AccessesAt.touchesAt (h : f.AccessesAt p x) :
  f.TouchesAt p x
  := by
  obtain ⟨i, hi, ⟨d, rfl⟩ | hload | hstore⟩ := h
  · exact ⟨_, hi, Inst.mem_touched.mpr (.inl (.inr List.mem_cons_self))⟩
  · exact ⟨i, hi, Inst.mem_touched.mpr (.inr (.inl hload))⟩
  · exact ⟨i, hi, Inst.mem_touched.mpr (.inr (.inr hstore))⟩

/-- The interval of a variable reaches from each access to each access. -/
theorem covers_access (wf : f.WellFormed) (h : f.intervals = .ok f') (hx : f.isVar x = true)
    (haccess : f.AccessesAt p x) :
  (f'.operand x).LiveFrom p ∧ (f'.operand x).LiveTo p
  := by
  obtain ⟨hcovers, hwrites⟩ := covers_intervals wf h
  obtain ⟨i, hi, ⟨d, rfl⟩ | hwrite⟩ := haccess
  · exact hcovers.visited.load p d x (mem_live.mpr hi) hx
  · exact ⟨(hcovers.visited.write p i x (mem_live.mpr hi) hwrite hx).1, hwrites p i x hi hwrite hx⟩

/-- A temp with an interval is defined where the interval starts. -/
theorem definesAt_liveStart (wf : f.WellFormed) (h : f.intervals = .ok f') (hx : f.isTemp x = true)
    {start : Nat} (hstart : (f'.operand x).liveStart = some start) :
  f.DefinesAt start x
  := by
  obtain ⟨i, hi, hdef | rfl⟩ := (startsRight_intervals h).temp x start hx hstart
  · exact ⟨i, hi, hdef⟩
  · exact absurd hi (wf.fetch_ne_forceLoad hx start)

/-- An interval with an end is in order. -/
theorem liveStart_le_liveEnd (wf : f.WellFormed) (h : f.intervals = .ok f') {start stop : Nat}
    (hstart : (f'.operand x).liveStart = some start) (hstop : (f'.operand x).liveEnd = some stop) :
  start ≤ stop
  := by
  rcases isTemp_or_isVar_of_liveStart wf h hstart with hx | hx
  · have hdef := definesAt_liveStart wf h hx hstart
    have hread := (endsRight_intervals wf h).temp x stop hx hstop
    exact Nat.le_of_lt (wf.lt_of_reads hdef hread hx)
  · obtain ⟨stop', hstop', hle⟩ :=
      (covers_access wf h hx ((startsRight_intervals h).var x start hx hstart)).2
    rw [hstop] at hstop'
    cases hstop'
    exact hle

/-- The live intervals of a function hold what its instructions touch. -/
structure HoldsAccesses (f f' : Function) : Prop where
  ordered : ∀ x start stop, (f'.operand x).liveStart = some start → (f'.operand x).liveEnd = some stop →
    start ≤ stop ∧ stop < f.size
  /-- A temp that is not read is touched at the start of its interval only. -/
  within : ∀ p x, f.TouchesAt p x → f.isTemp x = true ∨ f.isVar x = true →
    ∃ start, (f'.operand x).liveStart = some start ∧
      ((∃ stop, (f'.operand x).liveEnd = some stop ∧ start ≤ p ∧ p ≤ stop) ∨
        f.isTemp x = true ∧ f.Unread x ∧ p = start)
  untouched : ∀ x, (∀ p, ¬ f.TouchesAt p x) → (f'.operand x).liveStart = none

/-- The interval of a temp holds every position at which it is touched, or is its definition alone
if nothing reads it. -/
theorem within_of_isTemp (wf : f.WellFormed) (h : f.intervals = .ok f') (htouch : f.TouchesAt p x)
    (hx : f.isTemp x = true) :
  ∃ start, (f'.operand x).liveStart = some start ∧
    ((∃ stop, (f'.operand x).liveEnd = some stop ∧ start ≤ p ∧ p ≤ stop) ∨
      f.isTemp x = true ∧ f.Unread x ∧ p = start)
  := by
  obtain ⟨hcovers, -⟩ := covers_intervals wf h
  -- Its definition is the only one, and stands before its reads.
  obtain ⟨q, hdef, hqp⟩ : ∃ q, f.DefinesAt q x ∧ q ≤ p := by
    rcases htouch.of_isTemp wf hx with hdef | hread
    · exact ⟨p, hdef, Nat.le_refl p⟩
    · obtain ⟨q, hlt, hdef⟩ := wf.defined p x hread hx
      exact ⟨q, hdef, Nat.le_of_lt hlt⟩
  obtain ⟨start, hstart, -⟩ := hcovers.define q x hdef hx
  obtain rfl : start = q := wf.single start q x (definesAt_liveStart wf h hx hstart) hdef
  refine ⟨start, hstart, ?_⟩
  by_cases hunread : f.Unread x
  · refine .inr ⟨hx, hunread, ?_⟩
    have hdef' := (htouch.of_isTemp wf hx).resolve_right (hunread p)
    exact wf.single p start x hdef' hdef
  · left
    obtain ⟨r, hread⟩ : ∃ r, f.ReadsAt r x := by
      by_contra hnone
      exact hunread fun r hread => hnone ⟨r, hread⟩
    rcases htouch.of_isTemp wf hx with hdef' | hread'
    · obtain ⟨stop, hstop, hle⟩ := hcovers.read r x hread hx
      refine ⟨stop, hstop, hqp, Nat.le_trans ?_ hle⟩
      exact Nat.le_of_lt (wf.lt_of_reads hdef' hread hx)
    · obtain ⟨stop, hstop, hle⟩ := hcovers.read p x hread' hx
      exact ⟨stop, hstop, hqp, hle⟩

/-- The intervals that are found in well-formed code hold what its instructions touch. -/
theorem holdsAccesses_intervals (wf : f.WellFormed) (h : f.intervals = .ok f') :
  f.HoldsAccesses f'
  := by
  constructor
  · intro x start stop hstart hstop
    exact ⟨liveStart_le_liveEnd wf h hstart hstop, liveEnd_lt_size h hstop⟩
  · rintro p x htouch (hx | hx)
    · exact within_of_isTemp wf h htouch hx
    · obtain ⟨⟨start, hstart, hfrom⟩, stop, hstop, hto⟩ := covers_access wf h hx (htouch.of_isVar wf hx)
      exact ⟨start, hstart, .inl ⟨stop, hstop, hfrom, hto⟩⟩
  · intro x hnone
    cases hstart : (f'.operand x).liveStart with
    | none => rfl
    | some start =>
      exfalso
      apply hnone start
      rcases isTemp_or_isVar_of_liveStart wf h hstart with hx | hx
      · obtain ⟨i, hi, hdef⟩ := definesAt_liveStart wf h hx hstart
        exact ⟨i, hi, Inst.mem_touched.mpr (.inl (.inl hdef))⟩
      · exact ((startsRight_intervals h).var x start hx hstart).touchesAt

end Function

/-- After any calls of passes on lowered code the analysis succeeds, and its intervals hold what
the instructions touch. -/
theorem holdsAccesses_callAll {f : Bytecode.Function} {g : Function} (hlower : lower f = .ok g)
    {ctx : Context} (hctx : ctx.obsolete = []) (passes : List PassName) :
  let h := (State.callAll ⟨g, ctx⟩ passes).func
  ∃ h', h.intervals = .ok h' ∧ h.HoldsAccesses h'
  := by
  have horderly := State.orderly_callAll (State.orderly_lower hlower hctx) passes
  have wf := horderly.obsolete.wellFormed
  obtain ⟨h', hintervals⟩ := horderly.wired.exists_intervals wf
  exact ⟨h', hintervals, Function.holdsAccesses_intervals wf hintervals⟩

/-- A loop that reads a variable, a store to it after the loop, and a value that nothing uses. -/
def looseEnds : Bytecode.Function where
  constants := [.integer 5]
  parameterCount := 1
  localVars := ["x"]
  instructions := [
    ⟨.label, some 0⟩, ⟨.loadLocal, some 0⟩, ⟨.branch, some 0⟩, ⟨.loadConst, some 0⟩,
    ⟨.storeLocal, some 0⟩, ⟨.loadConst, some 0⟩, ⟨.loadConst, some 0⟩, ⟨.ret, none⟩]

/-- The interval of the variable goes on to the store, and that of the unused temp is one position. -/
theorem holdsAccesses_callAll_looseEnds :
  ∃ g h', lower looseEnds = .ok g ∧
    let h := (State.callAll ⟨g, { options := {} }⟩ [.loadVars]).func
    h.intervals = .ok h' ∧ h.fetch 6 = some (.store 0 3) ∧ h.fetch 7 = some (.assign 5 4) ∧
      (∃ start stop, (h'.operand 0).liveStart = some start ∧ (h'.operand 0).liveEnd = some stop ∧
        start ≤ 6 ∧ 6 ≤ stop ∧ stop < h.size) ∧
      h.Unread 5 ∧ (h'.operand 5).liveStart = some 7
  := by
  have hok : (lower looseEnds).isOk = true := by decide +kernel
  obtain ⟨g, hg⟩ := exists_eq_ok hok
  have hcode : ((lower looseEnds).toOption.any fun g =>
      let h := (State.callAll ⟨g, { options := {} }⟩ [.loadVars]).func
      h.fetch 6 == some (.store 0 3) && h.fetch 7 == some (.assign 5 4) && h.isVar 0 && h.isTemp 5 &&
        h.live.all fun e => !e.2.uses.contains 5) = true := by
    decide +kernel
  rw [hg] at hcode
  simp only [Except.toOption, Option.any_some, Bool.and_eq_true, beq_iff_eq] at hcode
  obtain ⟨⟨⟨⟨h₆, h₇⟩, hvar⟩, htemp⟩, hreads⟩ := hcode
  have hunread : (State.callAll ⟨g, { options := {} }⟩ [.loadVars]).func.Unread 5 := by
    rintro p ⟨i, hi, huse⟩
    have hall := List.all_eq_true.mp hreads (p, i) (Function.mem_live.mpr hi)
    rw [List.contains_iff_mem.mpr huse] at hall
    cases hall
  have hctx : ({ options := {} } : Context).obsolete = [] := rfl
  obtain ⟨h', hintervals, hholds⟩ := holdsAccesses_callAll hg hctx [.loadVars]
  refine ⟨g, h', hg, hintervals, h₆, h₇, ?_, hunread, ?_⟩
  · obtain ⟨start, hstart, ⟨stop, hstop, hle, hle'⟩ | ⟨htemp, -, -⟩⟩ :=
      hholds.within 6 0 ⟨_, h₆, by decide⟩ (.inr hvar)
    · exact ⟨start, stop, hstart, hstop, hle, hle', (hholds.ordered 0 start stop hstart hstop).2⟩
    · rw [Function.isVar_eq_false htemp] at hvar
      cases hvar
  · obtain ⟨start, hstart, ⟨stop, hstop, -, -⟩ | ⟨-, -, rfl⟩⟩ :=
      hholds.within 7 5 ⟨_, h₇, by decide⟩ (.inl htemp)
    · have wf := (State.orderly_callAll (State.orderly_lower hg hctx) [.loadVars]).obsolete.wellFormed
      exact absurd ((Function.endsRight_intervals wf hintervals).temp 5 stop htemp hstop) (hunread stop)
    · exact hstart

end StackCompiler.IR
