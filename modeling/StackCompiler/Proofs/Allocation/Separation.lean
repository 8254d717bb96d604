import Mathlib.Data.List.Sort
import Mathlib.Data.Option.Basic
import StackCompiler.Proofs.Allocation.Ownership
import StackCompiler.Proofs.Lowering.ControlFlow

/-!
# Operands in one register

Each step of the scan keeps what `LinearScan.Keeps` says, and so does a whole run.  So of two
operands in one register whose intervals overlap one borrows from the other, or both borrow
from a third.
-/

namespace StackCompiler.IR

namespace LinearScan

variable {f : Function} {pool : List Register} {s s' : LinearScan} {done owners : List OperandId}
  {now : Nat} {id : OperandId}

/-! ### One step of the scan -/

theorem mem_inUse {r : Register} :
  r ∈ s.inUse ↔ ∃ v ∈ s.active, s.registerOf v = some r
  := List.mem_filterMap

/-- The free register that the scan finds is one of the pool that is not in use. -/
theorem Keeps.mem_of_freeRegister (h : Keeps f pool s done owners now) {r : Register}
    (hr : s.freeRegister id = .ok r) :
  r ∈ pool ∧ r ∉ s.inUse
  := by
  have hpool : freeRegister.fromPool s id s.inUse = .ok r → r ∈ pool ∧ r ∉ s.inUse := by
    intro hr
    unfold freeRegister.fromPool at hr
    split at hr
    · rename_i found hfind
      cases hr
      refine ⟨h.pool_eq ▸ List.mem_of_find?_eq_some hfind, ?_⟩
      simpa using List.find?_some hfind
    · cases hr
  unfold freeRegister at hr
  dsimp only at hr
  split at hr
  · rename_i r' hlast
    obtain ⟨x, -, hx⟩ := Option.bind_eq_some_iff.mp hlast
    split at hr
    · exact hpool hr
    · rename_i hfree
      cases hr
      exact ⟨h.remembered x r hx, by simpa using hfree⟩
  · exact hpool hr

/-- An operand that may share is a temp, loaded from the operand whose register it takes. -/
theorem Keeps.borrows_of_shareable (h : Keeps f pool s done owners now) (hid : id ∉ done)
    (hstart : f.Starts id) (hnow : (f.operand id).firstPosition = now) {v : OperandId} {r : Register}
    (hshare : s.shareable? id = some (v, r)) :
  v ∈ s.active ∧ s.registerOf v = some r ∧ f.Borrows id v
  := by
  unfold shareable? at hshare
  simp only [bind, Option.bind_eq_some_iff, pure, Option.some.injEq, Prod.mk.injEq,
    Option.guard_eq_some'] at hshare
  obtain ⟨v', -, r', hr, u₁, hactive, u₂, hend, u₃, hload, u₄, hkept, rfl, rfl⟩ := hshare
  simp only [List.contains_eq_mem, decide_eq_true_eq] at hactive
  rw [h.placed.firstPosition_eq, h.placed.inst?_eq] at hload
  rw [endOf, h.placed.lastPosition_eq, h.placed.lastPosition_eq] at hend
  have hdone := h.owner_done _ (h.active_owner _ hactive)
  have hinst : ∀ {i}, f.fetch (f.operand id).firstPosition = some i → i = .assign id v' := by
    intro i hi
    have hi := (Function.fetch_eq_some.mp hi).2
    exact Option.some.inj (hi.symm.trans hload)
  -- A variable in the place of the temp would be loaded from itself, and so be placed already.
  have htemp : f.isTemp id = true := by
    rcases hstart.value with htemp | hvar
    · exact htemp
    · obtain ⟨i, hi, hread | hforce | hstore⟩ := hstart.accesses hvar
      · obtain ⟨d, rfl⟩ := hread
        cases hinst hi
        exact absurd hdone hid
      · cases hforce.symm.trans (hinst hi)
      · obtain ⟨src, rfl⟩ := hstore
        cases hinst hi
  refine ⟨hactive, hr, htemp, ?_, ?_, hend, ?_⟩
  · obtain ⟨i, hi, -⟩ := hstart.enters htemp
    rw [hi, hinst hi]
  · rw [hnow]
    exact h.started _ hdone
  · intro hvar p src hp hbetween
    rw [← h.placed.same.fetch_eq] at hp
    rw [← h.placed.isVar_eq] at hvar
    have hwritten : s.isOverwritten v' (f.operand id).firstPosition (f.operand id).lastPosition = true := by
      unfold isOverwritten
      rw [hvar, Bool.true_and, List.any_eq_true]
      exact ⟨(p, .store v' src), Function.mem_live.mpr hp, by simpa using hbetween⟩
    rw [h.placed.firstPosition_eq, h.placed.lastPosition_eq, hwritten] at hkept
    cases hkept

/-- A spilled operand stays in memory, or takes the register of one that lives longer. -/
theorem Keeps.spill (h : Keeps f pool s done owners now) (hdone : id ∈ done) (hown : id ∉ owners)
    (hlt : id < f.operands.size) (hnone : s.registerOf id = none)
    (hunlisted : ∀ v, id ∉ (s.sharing.at? v).getD [])
    (hfirst : now ≤ (f.operand id).firstPosition) :
  ∃ owners', Keeps f pool (s.spill id) done owners' now
  := by
  unfold LinearScan.spill
  cases hlast : s.active.getLast? with
  | none => exact ⟨owners, h.leave hlt hnone⟩
  | some victim =>
    dsimp only
    split
    · have hactive := List.mem_of_getLast? hlast
      obtain ⟨r, hr⟩ := h.held victim hactive
      have hevict := h.evict hlast
      obtain ⟨func, -, heq⟩ := s.evict_eq victim
      refine ⟨id :: owners, ?_⟩
      rw [show (s.func.operand victim).register = some r from hr]
      apply hevict.own hdone hown hlt hfirst
      · intro v
        rw [heq, Table.at?_without]
        split
        · exact List.not_mem_nil
        · exact hunlisted v
      · exact h.inPool victim (h.owner_done victim (h.active_owner victim hactive)) r hr
      · -- Only the victim had its register.
        intro v hv hvr
        have hreg := registerOf_evict s victim v
        rw [hvr] at hreg
        split at hreg
        · cases hreg
        · rename_i hother
          have hmem : v ∈ s.active := by
            rw [heq] at hv
            exact (List.dropLast_sublist _).mem hv
          exact hother (.inl (h.distinct v hmem victim hactive (hreg.symm.trans hr.symm)))
    · exact ⟨owners, h.leave hlt hnone⟩

/-- Placing an operand `id` that starts no earlier than `now` brings the scan to the first position
of `id`, with `id` among the placed. -/
theorem Keeps.place (h : Keeps f pool s done owners now) (hid : id ∉ done) (hstart : f.Starts id)
    (hle : now ≤ (f.operand id).firstPosition) (hplace : s.place id = .ok s') :
  ∃ owners', Keeps f pool s' (id :: done) owners' (f.operand id).firstPosition
  := by
  have hexpire := h.expire hle
  unfold LinearScan.place at hplace
  rw [h.placed.firstPosition_eq] at hplace
  dsimp only at hplace
  generalize s.expire (f.operand id).firstPosition = s₁ at hexpire hplace
  have henter := hexpire.enter hid hstart.value (Nat.le_refl _)
  have hnone := hexpire.waiting id hstart.value hid
  have hown : id ∉ owners := fun hmem => hid (h.owner_done id hmem)
  have hunlisted : ∀ v, id ∉ (s₁.sharing.at? v).getD [] :=
    fun v hmem => hid (hexpire.listed v id hmem).1
  split at hplace
  · rename_i v r hshare
    cases hplace
    obtain ⟨hactive, hr, hborrows⟩ := hexpire.borrows_of_shareable hid hstart rfl hshare
    exact ⟨owners, henter.share List.mem_cons_self hown hstart.lt hactive hr hborrows⟩
  · split at hplace
    · cases hfree : s₁.freeRegister id with
      | error cause =>
        rw [hfree] at hplace
        cases hplace
      | ok r =>
        rw [hfree] at hplace
        cases hplace
        obtain ⟨hpool, huse⟩ := hexpire.mem_of_freeRegister hfree
        refine ⟨id :: owners, ?_⟩
        apply henter.own List.mem_cons_self hown hstart.lt (Nat.le_refl _) hunlisted hpool
        exact fun v hv hvr => huse (mem_inUse.mpr ⟨v, hv, hvr⟩)
    · cases hplace
      exact henter.spill List.mem_cons_self hown hstart.lt hnone hunlisted (Nat.le_refl _)

/-- Placing operands `ids` in the order of their first positions keeps what the scan knows, with all
of `ids` placed in the end. -/
theorem Keeps.placeAll (ids : List OperandId) (h : Keeps f pool s done owners now)
    (hstarts : ∀ id ∈ ids, f.Starts id) (hids : ids.Nodup) (hnew : ∀ id ∈ ids, id ∉ done)
    (hle : ∀ id ∈ ids, now ≤ (f.operand id).firstPosition)
    (horder : ids.Pairwise fun a b => (f.operand a).firstPosition ≤ (f.operand b).firstPosition)
    (hrun : ids.foldlM LinearScan.place s = .ok s') :
  ∃ owners' now', Keeps f pool s' (ids.reverse ++ done) owners' now'
  := by
  induction ids generalizing s done owners now with
  | nil =>
    cases hrun
    exact ⟨owners, now, h⟩
  | cons id ids ih =>
    rw [List.foldlM_cons] at hrun
    rw [List.nodup_cons] at hids
    rw [List.pairwise_cons] at horder
    cases hplace : s.place id with
    | error stopped =>
      rw [hplace] at hrun
      cases hrun
    | ok s₁ =>
      rw [hplace] at hrun
      obtain ⟨owners', h'⟩ := h.place (hnew id List.mem_cons_self) (hstarts id List.mem_cons_self)
        (hle id List.mem_cons_self) hplace
      rw [List.reverse_cons, List.append_assoc, List.singleton_append]
      apply ih h'
      · exact fun other hother => hstarts other (List.mem_cons_of_mem _ hother)
      · exact hids.2
      · intro other hother hdone
        rcases List.mem_cons.mp hdone with rfl | hdone
        · exact hids.1 hother
        · exact hnew other (List.mem_cons_of_mem _ hother) hdone
      · exact horder.1
      · exact horder.2
      · exact hrun

/-! ### What follows -/

section Kept

variable (h : Keeps f pool s done owners now)
include h

theorem Keeps.mem_done {x : OperandId} {r : Register} (hx : f.isTemp x = true ∨ f.isVar x = true)
    (hr : s.registerOf x = some r) :
  x ∈ done
  := by
  by_contra hnot
  rw [h.waiting x hx hnot] at hr
  cases hr

/-- An operand in a register owns it or borrows it from an owner with a larger interval. -/
theorem Keeps.exists_owner {x : OperandId} {r : Register} (hx : x ∈ done)
    (hr : s.registerOf x = some r) :
  ∃ v ∈ owners, s.registerOf v = some r ∧ (v = x ∨ f.Borrows x v) ∧
    (f.operand v).firstPosition ≤ (f.operand x).firstPosition ∧
    (f.operand x).lastPosition ≤ (f.operand v).lastPosition
  := by
  by_cases hown : x ∈ owners
  · exact ⟨x, hown, hr, .inl rfl, Nat.le_refl _, Nat.le_refl _⟩
  · obtain ⟨v, hv, hvr, hborrows, -⟩ := h.borrowed x hx hown r hr
    exact ⟨v, hv, hvr, .inr hborrows, hborrows.first_le, hborrows.last_le⟩

/-- Operands in one register whose intervals overlap have one owner. -/
theorem Keeps.exists_common_owner {x y : OperandId} {r : Register} (hx : x ∈ done) (hy : y ∈ done)
    (hxr : s.registerOf x = some r) (hyr : s.registerOf y = some r)
    (hover : (f.operand x).Overlaps (f.operand y)) :
  ∃ v ∈ owners, s.registerOf v = some r ∧ (v = x ∨ f.Borrows x v) ∧ (v = y ∨ f.Borrows y v)
  := by
  obtain ⟨u, hu, hur, hxu, hfirst, hlast⟩ := h.exists_owner hx hxr
  obtain ⟨v, hv, hvr, hyv, hfirst', hlast'⟩ := h.exists_owner hy hyr
  -- The owners' intervals overlap as well.
  have huv : u = v := by
    by_contra huv
    apply h.apart u hu v hv r huv hur hvr
    obtain ⟨h₁, h₂⟩ := hover
    exact ⟨by omega, by omega⟩
  exact ⟨u, hu, hur, hxu, huv ▸ hyv⟩

/-- Of two operands in one register whose intervals overlap one borrows from the other, or both
borrow from a third. -/
theorem Keeps.borrows_of_overlaps {x y : OperandId} {r : Register} (hx : x ∈ done) (hy : y ∈ done)
    (hne : x ≠ y) (hxr : s.registerOf x = some r) (hyr : s.registerOf y = some r)
    (hover : (f.operand x).Overlaps (f.operand y)) :
  f.Borrows x y ∨ f.Borrows y x ∨ ∃ v, s.registerOf v = some r ∧ f.Borrows x v ∧ f.Borrows y v
  := by
  obtain ⟨u, -, hur, hxu, hyv⟩ := h.exists_common_owner hx hy hxr hyr hover
  rcases hxu with rfl | hxu
  · rcases hyv with rfl | hyu
    · exact absurd rfl hne
    · exact .inr (.inl hyu)
  · rcases hyv with rfl | hyu
    · exact .inl hxu
    · exact .inr (.inr ⟨u, hur, hxu, hyu⟩)

end Kept

end LinearScan

/-! ### The whole scan -/

namespace Function

variable {f f' g : Function} {pool : List Register} {s : LinearScan}

/-- One operand is placed before another if its interval starts first.  Of intervals that start
together, those of variables go first, and then the order is that of the table. -/
theorem placedBefore_iff {a b : OperandId} :
  f.placedBefore a b = true ↔ (f.operand a).firstPosition < (f.operand b).firstPosition ∨
    (f.operand a).firstPosition = (f.operand b).firstPosition ∧
      ((f.operand a).isTemp = false ∧ (f.operand b).isTemp = true ∨
        (f.operand a).isTemp = (f.operand b).isTemp ∧ a ≤ b)
  := by
  simp [placedBefore]

theorem placedBefore_trans {a b c : OperandId} :
  f.placedBefore a b = true → f.placedBefore b c = true → f.placedBefore a c = true
  := by
  simp only [placedBefore_iff]
  grind

theorem placedBefore_total (f : Function) (a b : OperandId) :
  f.placedBefore a b = true ∨ f.placedBefore b a = true
  := by
  simp only [placedBefore_iff]
  grind

theorem placedBefore_antisymm {a b : OperandId} :
  f.placedBefore a b = true → f.placedBefore b a = true → a = b
  := by
  simp only [placedBefore_iff]
  grind

/-- Operands are placed in the order in which their intervals start. -/
theorem placementOrder_sorted (f : Function) :
  f.placementOrder.Pairwise fun a b => (f.operand a).firstPosition ≤ (f.operand b).firstPosition
  := by
  have hsorted : f.placementOrder.Pairwise fun a b => f.placedBefore a b = true := by
    apply List.pairwise_mergeSort
    · exact fun a b c => placedBefore_trans
    · intro a b
      rw [Bool.or_eq_true]
      exact f.placedBefore_total a b
  refine hsorted.imp fun {a b} hab => ?_
  rw [placedBefore_iff] at hab
  omega

/-- The order of placement in a form that can be unfolded. -/
theorem placementOrder_eq_insertionSort (f : Function) :
  f.placementOrder = (f.values.filter fun id => (f.operand id).isLive).insertionSort (f.placedBefore · ·)
  := by
  have htotal : Std.Total fun a b => f.placedBefore a b = true := ⟨f.placedBefore_total⟩
  have htrans : IsTrans OperandId fun a b => f.placedBefore a b = true :=
    ⟨fun _ _ _ => placedBefore_trans⟩
  have hantisymm : Std.Antisymm fun a b => f.placedBefore a b = true :=
    ⟨fun _ _ => placedBefore_antisymm⟩
  rw [← List.mergeSort_eq_insertionSort]
  simp only [Bool.decide_eq_true]
  rfl

theorem mem_placementOrder {id : OperandId} :
  id ∈ f.placementOrder ↔ (id < f.operands.size ∧ (f.isTemp id = true ∨ f.isVar id = true)) ∧
    (f.operand id).isLive = true
  := by
  unfold placementOrder values operandIds
  rw [List.mem_mergeSort, List.mem_filter, List.mem_filter, List.mem_range, Bool.or_eq_true]

/-- No operand is placed twice. -/
theorem placementOrder_nodup (f : Function) :
  f.placementOrder.Nodup
  := by
  unfold placementOrder values operandIds
  rw [(List.mergeSort_perm _ _).nodup_iff]
  exact (List.nodup_range.filter _).filter _

/-- The intervals of a function start where its operands are accessed. -/
theorem StartsRight.starts (h : f.StartsRight f') {id : OperandId} (hlt : id < f'.operands.size)
    (hvalue : f'.isTemp id = true ∨ f'.isVar id = true) (hlive : (f'.operand id).isLive = true) :
  f'.Starts id
  := by
  obtain ⟨start, hstart⟩ := Option.isSome_iff_exists.mp hlive
  have hfirst : (f'.operand id).firstPosition = start := by
    rw [Operand.firstPosition, hstart, Option.getD_some]
  have hkind := h.same.kind_eq id
  refine ⟨hlt, hvalue, fun htemp => ?_, fun hvar => ?_⟩
  · rw [isTemp_congr hkind] at htemp
    obtain ⟨i, hi, hin⟩ := h.temp id start htemp hstart
    exact ⟨i, by rw [hfirst, h.same.fetch_eq, hi], hin⟩
  · rw [isVar_congr hkind] at hvar
    obtain ⟨i, hi, hin⟩ := h.var id start hvar hstart
    exact ⟨i, by rw [hfirst, h.same.fetch_eq, hi], hin⟩

/-- A scan keeps owners of one register apart, from its start until all operands are placed. -/
theorem keeps_scan_placementOrder (hstarts : f.StartsRight f') (hscan : f'.scan pool = .ok s) :
  ∃ owners now, LinearScan.Keeps f' pool s f'.clearRegisters.placementOrder.reverse owners now
  := by
  rw [← List.append_nil (List.reverse _)]
  have hplaced := f'.placed_clearRegisters
  have hstart : LinearScan.Keeps f' pool { func := f'.clearRegisters, pool } [] [] 0 := by
    refine ⟨hplaced, rfl, nofun, nofun, List.nodup_nil, nofun, nofun, nofun, nofun, nofun, nofun,
      nofun, nofun, fun v hvalue _ => ?_, nofun⟩
    have hoperand := f'.operand_clearRegisters v
    rw [if_pos (by rwa [Bool.or_eq_true])] at hoperand
    exact congrArg Operand.register hoperand
  refine hstart.placeAll f'.clearRegisters.placementOrder ?_ ?_ (fun _ _ => nofun)
    (fun _ _ => Nat.zero_le _) ?_ hscan
  · intro id hid
    obtain ⟨⟨hlt, hvalue⟩, hlive⟩ := mem_placementOrder.mp hid
    rw [hplaced.same.size_eq] at hlt
    rw [hplaced.isTemp_eq, hplaced.isVar_eq] at hvalue
    rw [hplaced.isLive_eq] at hlive
    exact hstarts.starts hlt hvalue hlive
  · exact placementOrder_nodup _
  · refine (placementOrder_sorted _).imp fun {a b} hab => ?_
    rwa [hplaced.firstPosition_eq, hplaced.firstPosition_eq] at hab

/-- When the scan of a function is over, what it knows is true of all operands that it has
visited. -/
theorem keeps_scan (hstarts : f.StartsRight f') (hscan : f'.scan pool = .ok s) :
  ∃ done owners now, LinearScan.Keeps f' pool s done owners now
  := ⟨_, keeps_scan_placementOrder hstarts hscan⟩

/-- Allocation that succeeds gives the function that the scan gives. -/
theorem exists_scan_of_allocate {a : Allocation} (hallocate : f.allocate pool = .ok (g, a)) :
  ∃ s, f.scan pool = .ok s ∧ s.func = g
  := by
  unfold allocate at hallocate
  split at hallocate
  · rename_i s hscan
    cases hallocate
    exact ⟨s, hscan, rfl⟩
  · cases hallocate

theorem mem_pool_of_allocate {a : Allocation} (hstarts : f.StartsRight f')
    (hallocate : f'.allocate pool = .ok (g, a)) {x : OperandId} {r : Register}
    (hx : f'.isTemp x = true ∨ f'.isVar x = true) (hr : (g.operand x).register = some r) :
  r ∈ pool
  := by
  obtain ⟨s, hscan, rfl⟩ := exists_scan_of_allocate hallocate
  obtain ⟨done, owners, now, h⟩ := keeps_scan hstarts hscan
  exact h.inPool x (h.mem_done hx hr) r hr

/-- Of two operands in one register whose intervals overlap, one borrows the register from the
other, or both borrow it from a third. -/
theorem allocate_separates {a : Allocation} (hintervals : f.intervals = .ok f')
    (hallocate : f'.allocate pool = .ok (g, a)) :
  (∀ x r, f'.isTemp x = true ∨ f'.isVar x = true → (g.operand x).register = some r → r ∈ pool) ∧
  ∀ x y r, f'.isTemp x = true ∨ f'.isVar x = true → f'.isTemp y = true ∨ f'.isVar y = true → x ≠ y →
    (g.operand x).register = some r → (g.operand y).register = some r →
    (f'.operand x).Overlaps (f'.operand y) →
    f'.Borrows x y ∨ f'.Borrows y x ∨
      ∃ v, (g.operand v).register = some r ∧ f'.Borrows x v ∧ f'.Borrows y v
  := by
  unfold allocate at hallocate
  split at hallocate
  · rename_i s hscan
    cases hallocate
    obtain ⟨done, owners, now, h⟩ := keeps_scan (startsRight_intervals hintervals) hscan
    refine ⟨fun x r hx hr => ?_, fun x y r hx hy hne hxr hyr hover => ?_⟩
    · exact h.inPool x (h.mem_done hx hr) r hr
    · exact h.borrows_of_overlaps (h.mem_done hx hxr) (h.mem_done hy hyr) hne hxr hyr hover
  · cases hallocate

/-- The counter and the temp into which it is read are in one register. -/
theorem allocate_separates_countdown :
  ∃ f f' g a, lower .countdown = .ok f ∧ f.intervals = .ok f' ∧
    f'.allocate [.r12, .r13] = .ok (g, a) ∧ (g.operand 0).register = some .r12 ∧
    (g.operand 1).register = some .r12 ∧ (f'.operand 1).Overlaps (f'.operand 0) ∧ f'.Borrows 1 0
  := by
  have hok : (match lower .countdown with
      | .error _ => false
      | .ok f => match f.intervals with
        | .error _ => false
        | .ok f' => match f'.allocate [.r12, .r13] with
          | .error _ => false
          | .ok (g, _) => f'.isTemp 1 && f'.isVar 0 && (g.operand 0).register == some .r12 &&
            (g.operand 1).register == some .r12 && decide ((f'.operand 1).Overlaps (f'.operand 0))) = true := by
    simp only [allocate, scan, placementOrder_eq_insertionSort]
    decide +kernel
  cases hlower : lower .countdown with
  | error e =>
    rw [hlower] at hok
    cases hok
  | ok f =>
  cases hintervals : f.intervals with
  | error e =>
    simp only [hlower, hintervals] at hok
    cases hok
  | ok f' =>
  cases hallocate : f'.allocate [.r12, .r13] with
  | error e =>
    simp only [hlower, hintervals, hallocate] at hok
    cases hok
  | ok ga =>
  obtain ⟨g, a⟩ := ga
  simp only [hlower, hintervals, hallocate, Bool.and_eq_true, beq_iff_eq, decide_eq_true_eq] at hok
  obtain ⟨⟨⟨⟨htemp, hvar⟩, h₀⟩, h₁⟩, hover⟩ := hok
  have hnot : ∀ v, ¬ f'.Borrows 0 v := by
    intro v h
    rw [isVar_eq_false h.temp] at hvar
    cases hvar
  refine ⟨f, f', g, a, rfl, hintervals, hallocate, h₀, h₁, hover, ?_⟩
  rcases (allocate_separates hintervals hallocate).2 1 0 .r12 (.inl htemp) (.inr hvar) (by decide) h₁ h₀ hover
    with h | h | ⟨v, -, -, h⟩
  · exact h
  · exact absurd h (hnot 1)
  · exact absurd h (hnot v)

end Function

end StackCompiler.IR
