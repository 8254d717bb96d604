import Mathlib.Algebra.Group.Nat.Defs
import StackCompiler.IR.Arena
import StackCompiler.Proofs.Code.Lines

/-!
# The arena stores a list of lines

An arena keeps instructions, handles, marks and labels apart, and a position shows what its
handle stands for.

* As long as no handle is given out twice, no two positions share one (`Arena.Distinct`), so
  that writing through a handle changes one position only (`Arena.Distinct.inst?_replace`).
* Every change of an arena is then the same change of the function that it stores
  (`Arena.Distinct.change`), and so is every sequence of changes (`Arena.Distinct.run`).
* With what is known of functions, the arena shows what a plain list of lines edited in the
  same way would show (`arena_refines_lines`).

The bound on the number of instructions cannot be left out: after 2³² of them the next one gets
the handle of the first (`Arena.inst?_run_push`, `Arena.exists_inst?_ne`).
-/

namespace StackCompiler.IR

namespace InstId

/-- A handle keeps the lowest 32 bits of its place in the arena. -/
theorem index_ofIndex (index : Nat) :
  (ofIndex index).index = index % 2 ^ 32
  := UInt32.toNat_ofNat'

/-- A place that fits into 32 bits is the one that its handle stands for. -/
theorem index_ofIndex_of_lt {index : Nat} (h : index < 2 ^ 32) :
  (ofIndex index).index = index
  := by
  rw [index_ofIndex, Nat.mod_eq_of_lt h]

/-- Handles that stand for the same place are the same. -/
theorem eq_of_index_eq {i j : InstId} (h : i.index = j.index) :
  i = j
  := by
  cases i
  cases j
  rw [mk.injEq]
  apply UInt32.toNat_inj.mp h

end InstId

/-- A list with its positions, by its positions. -/
theorem zipIdx_eq_filterMap_range {α : Type} (xs : List α) :
  xs.zipIdx = (List.range xs.length).filterMap fun pos => xs[pos]?.map fun x => (x, pos)
  := by
  induction xs using List.reverseRecOn with
  | nil => rfl
  | append_singleton xs x ih =>
    have hold : (List.range xs.length).filterMap (fun pos => (xs ++ [x])[pos]?.map fun x => (x, pos))
        = xs.zipIdx := by
      rw [ih]
      apply List.filterMap_congr
      intro pos hpos
      rw [List.getElem?_append_left (List.mem_range.mp hpos)]
    rw [List.length_append, List.length_singleton, List.range_succ, List.filterMap_append, hold,
      List.zipIdx_append]
    simp

namespace Arena

variable {a : Arena}

/-- Makes a change to an arena; one that is refused leaves it as it was. -/
def change (a : Arena) : Change → Reply × Arena
  | .push inst => (.placed a.size, a.push inst)
  | .insert pos inst =>
    match a.insert pos inst with
    | .ok a' => (.done, a')
    | .error cause => (.refused cause, a)
  | .replace pos inst => (.done, a.replace pos inst)
  | .remove pos => (.done, a.remove pos)
  | .compact => (.dropped a.compact.1, a.compact.2)

/-! ### What is stored -/

/-- Every handle stands for an instruction, and no two positions have the same handle. -/
structure Distinct (a : Arena) : Prop where
  lt_size : ∀ id ∈ a.order, id.index < a.insts.size
  nodup : a.order.toList.Nodup

@[simp]
theorem size_code (a : Arena) :
  a.code.size = a.size
  := Array.size_map

/-- The code in program order has at each position what the handle there stands for. -/
theorem getElem?_code (h : ∀ id ∈ a.order, id.index < a.insts.size) (pos : Nat) :
  a.code[pos]? = a.inst? pos
  := by
  unfold code inst?
  rw [Array.getElem?_map]
  cases hid : a.order[pos]? with
  | none => rfl
  | some id =>
    have hlt := h id (Array.mem_of_getElem? hid)
    simp [Array.getD_eq_getD_getElem?, hlt]

/-- The positions with what stands there, one after the other. -/
theorem zipIdx_code (h : ∀ id ∈ a.order, id.index < a.insts.size) :
  a.code.toList.zipIdx
    = (List.range a.size).filterMap fun pos => (a.inst? pos).map fun inst => (inst, pos)
  := by
  rw [zipIdx_eq_filterMap_range, Array.length_toList, size_code]
  simp only [Array.getElem?_toList, getElem?_code h]

/-- The instructions that an arena shows are those of the function that it stores. -/
theorem live_view (h : ∀ id ∈ a.order, id.index < a.insts.size) (f : Function) :
  (a.view f).live = a.live
  := by
  have hcode : (a.view f).code = a.code := rfl
  unfold Function.live live
  rw [hcode, zipIdx_code h, List.filterMap_filterMap]
  apply List.filterMap_congr
  intro pos _
  have hremoved : (a.view f).isRemoved pos = a.isRemoved pos := rfl
  cases a.inst? pos with
  | none => simp
  | some inst => simp [hremoved]

/-- Making the label table of an arena anew is making that of the function it stores anew. -/
theorem view_reindex (h : ∀ id ∈ a.order, id.index < a.insts.size) (f : Function) :
  a.reindex.view f = (a.view f).reindex
  := by
  have hlabels : a.reindex.labels = Function.labelsOf a.code.toList := by
    unfold Function.labelsOf
    rw [zipIdx_code h, List.foldl_filterMap]
    apply List.foldl_ext
    intro labels pos _
    cases a.inst? pos with
    | none => rfl
    | some inst => rfl
  unfold view Function.reindex
  rw [hlabels]
  rfl

/-- A function is stored without shared handles, if there are handles for its instructions. -/
theorem distinct_ofFunction {f : Function} (h : f.size ≤ 2 ^ 32) :
  (ofFunction f).Distinct
  := by
  have hindex : ∀ n, n < f.size → (InstId.ofIndex n).index = n := by
    intro n hn
    apply InstId.index_ofIndex_of_lt (Nat.lt_of_lt_of_le hn h)
  constructor
  · intro id hid
    obtain ⟨n, hn, rfl⟩ := Array.mem_map.mp hid
    rw [Array.mem_range] at hn
    rw [hindex n hn]
    apply hn
  · have horder : (ofFunction f).order.toList = (List.range f.size).map .ofIndex := by
      simp [ofFunction, Function.size]
    rw [horder]
    apply List.Nodup.map_on _ List.nodup_range
    intro m hm n hn heq
    rw [List.mem_range] at hm hn
    rw [← hindex m hm, ← hindex n hn, heq]

/-- What is stored of a function is the function. -/
theorem view_ofFunction {f : Function} (h : f.size ≤ 2 ^ 32) :
  (ofFunction f).view f = f
  := by
  have hcode : (ofFunction f).code = f.code := by
    apply Array.ext_getElem?
    intro pos
    rw [getElem?_code (distinct_ofFunction h).lt_size]
    unfold inst? ofFunction
    by_cases hpos : pos < f.code.size
    · have hindex := InstId.index_ofIndex_of_lt (Nat.lt_of_lt_of_le hpos h)
      simp [hpos, hindex]
    · simp [hpos]
  unfold view
  rw [hcode]
  rfl

/-! ### Adding an instruction -/

@[simp]
theorem size_insts_push (a : Arena) (inst : Inst) :
  (a.push inst).insts.size = a.insts.size + 1
  := Array.size_push _

@[simp]
theorem size_insts_place (a : Arena) (pos : Nat) (inst : Inst) :
  (a.place pos inst).insts.size = a.insts.size + 1
  := Array.size_push _

/-- As long as there are fresh handles, the next handle stands for the instruction that is
added. -/
theorem index_nextId (hroom : a.insts.size < 2 ^ 32) :
  a.nextId.index = a.insts.size
  := by
  apply InstId.index_ofIndex_of_lt hroom

namespace Distinct

/-- The next handle has not been given out: those in the order stand for instructions that are
already there. -/
theorem nextId_notMem (h : a.Distinct) (hroom : a.insts.size < 2 ^ 32) :
  a.nextId ∉ a.order.toList
  := by
  intro hmem
  have hlt := h.lt_size _ (Array.mem_toList_iff.mp hmem)
  rw [index_nextId hroom] at hlt
  exact Nat.lt_irrefl _ hlt

/-- With an instruction added, the handles in the order stand for what they stood for. -/
theorem getD_push_of_mem (h : a.Distinct) (inst : Inst) {id : InstId} (hid : id ∈ a.order) :
  (a.insts.push inst).getD id.index default = a.insts.getD id.index default
  := by
  have hlt := h.lt_size id hid
  simp [Array.getD_eq_getD_getElem?, Array.getElem?_push_lt hlt, hlt]

/-- An arena stays without shared handles when an instruction is added and its fresh handle is
put anywhere in the order. -/
theorem of_perm_cons (h : a.Distinct) (hroom : a.insts.size < 2 ^ 32) {b : Arena}
    (hinsts : b.insts.size = a.insts.size + 1)
    (horder : b.order.toList.Perm (a.nextId :: a.order.toList)) :
  b.Distinct
  := by
  constructor
  · intro id hid
    rw [hinsts]
    rcases List.mem_cons.mp (horder.mem_iff.mp (Array.mem_toList_iff.mpr hid)) with rfl | hold
    · rw [index_nextId hroom]
      apply Nat.lt_succ_self _
    · apply Nat.lt_succ_of_lt (h.lt_size id (Array.mem_toList_iff.mp hold))
  · rw [horder.nodup_iff, List.nodup_cons]
    exact ⟨h.nextId_notMem hroom, h.nodup⟩

/-- Adding an instruction at the end keeps handles apart. -/
theorem push (h : a.Distinct) (hroom : a.insts.size < 2 ^ 32) (inst : Inst) :
  (a.push inst).Distinct
  := by
  apply h.of_perm_cons hroom
  · apply size_insts_push
  · have horder : (a.push inst).order.toList = a.order.toList ++ [a.nextId] := Array.toList_push
    rw [horder]
    apply List.perm_append_singleton _ _

/-- Adding an instruction at the end of an arena is adding it at the end of the function that
the arena stores. -/
theorem view_push (h : a.Distinct) (hroom : a.insts.size < 2 ^ 32) (inst : Inst) (f : Function) :
  (a.push inst).view f = (a.view f).push inst
  := by
  have hcode : (a.push inst).code = a.code.push inst := by
    unfold code Arena.push
    rw [Array.map_push, index_nextId hroom]
    congr 1
    · apply Array.map_congr_left fun id hid => h.getD_push_of_mem inst hid
    · simp [Array.getD_eq_getD_getElem?]
  unfold view Function.push
  rw [hcode, size_code]
  rfl

/-- Putting an instruction before a position keeps handles apart. -/
theorem place (h : a.Distinct) (hroom : a.insts.size < 2 ^ 32) {pos : Nat} (hpos : pos ≤ a.size)
    (inst : Inst) :
  (a.place pos inst).Distinct
  := by
  apply h.of_perm_cons hroom
  · apply size_insts_place
  · apply List.perm_insertIdx _ _ hpos

/-- Putting an instruction before a position of an arena is putting it before that position of
the function that the arena stores. -/
theorem view_place (h : a.Distinct) (hroom : a.insts.size < 2 ^ 32) {pos : Nat} (hpos : pos ≤ a.size)
    (inst : Inst) (f : Function) :
  (a.place pos inst).reindex.view f = (a.view f).inserted pos inst
  := by
  have hcode : (a.place pos inst).code = (a.code.toList.insertIdx pos inst).toArray := by
    apply Array.toList_inj.mp
    unfold code Arena.place
    rw [Array.toList_map, List.map_insertIdx, index_nextId hroom, Array.toList_map]
    congr 1
    · apply List.map_congr_left
      intro id hid
      apply h.getD_push_of_mem inst (Array.mem_toList_iff.mp hid)
    · simp [Array.getD_eq_getD_getElem?]
  rw [view_reindex (h.place hroom hpos inst).lt_size]
  unfold Function.inserted view
  rw [hcode]
  rfl

end Distinct

/-! ### Writing through a handle -/

@[simp]
theorem size_insts_replace (a : Arena) (pos : Nat) (inst : Inst) :
  (a.replace pos inst).insts.size = a.insts.size
  := by
  unfold replace
  cases a.order[pos]? with
  | none => rfl
  | some id => apply Array.size_setIfInBounds

namespace Distinct

/-- Writing through a handle keeps handles apart. -/
theorem replace (h : a.Distinct) (pos : Nat) (inst : Inst) :
  (a.replace pos inst).Distinct
  := by
  have horder : (a.replace pos inst).order = a.order := by
    unfold Arena.replace
    cases a.order[pos]? with
    | none => rfl
    | some id => rfl
  constructor
  · rw [horder, size_insts_replace]
    apply h.lt_size
  · rw [horder]
    apply h.nodup

/-- Two positions with the same handle are the same position. -/
theorem eq_of_getElem?_order (h : a.Distinct) {pos other : Nat} {id : InstId}
    (hpos : a.order[pos]? = some id) (hother : a.order[other]? = some id) :
  pos = other
  := by
  obtain ⟨hlt, -⟩ := Array.getElem?_eq_some_iff.mp hpos
  apply (List.getElem?_inj hlt h.nodup).mp
  rw [Array.getElem?_toList, Array.getElem?_toList, hpos, hother]

/-- Writing through the handle at `pos` changes what stands at `pos`, and nothing else. -/
theorem inst?_replace (h : a.Distinct) (pos other : Nat) (inst : Inst) :
  (a.replace pos inst).inst? other = (a.inst? other).map fun old => if pos = other then inst else old
  := by
  unfold Arena.replace inst?
  cases hid : a.order[pos]? with
  | none =>
    have hne : ∀ id, a.order[other]? = some id → pos ≠ other := by
      rintro id hother rfl
      rw [hid] at hother
      cases hother
    cases hother : a.order[other]? with
    | none => simp
    | some id => simp [hne id hother]
  | some id =>
    cases hother : a.order[other]? with
    | none => simp
    | some id' =>
      have hlt := h.lt_size id' (Array.mem_of_getElem? hother)
      by_cases heq : pos = other
      · subst heq
        rw [hid] at hother
        cases hother
        simp [hlt]
      · have hne : id.index ≠ id'.index := by
          intro hindex
          cases InstId.eq_of_index_eq hindex
          apply heq (h.eq_of_getElem?_order hid hother)
        simp [heq, hne]

/-- Writing through the handle at a position of an arena is replacing the instruction at that
position of the function that the arena stores. -/
theorem view_replace (h : a.Distinct) (pos : Nat) (inst : Inst) (f : Function) :
  (a.replace pos inst).view f = (a.view f).replace pos inst
  := by
  have hcode : (a.replace pos inst).code = a.code.setIfInBounds pos inst := by
    apply Array.ext_getElem?
    intro other
    rw [getElem?_code (h.replace pos inst).lt_size, h.inst?_replace, ← getElem?_code h.lt_size]
    apply (Function.getElem?_code_replace (a.view f) pos other inst).symm
  have hrest : (a.replace pos inst).pending = a.pending ∧ (a.replace pos inst).labels = a.labels := by
    unfold Arena.replace
    cases a.order[pos]? with
    | none => exact ⟨rfl, rfl⟩
    | some id => exact ⟨rfl, rfl⟩
  unfold view Function.replace
  rw [hcode, hrest.1, hrest.2]

/-! ### Dropping handles -/

/-- Dropping handles keeps the others apart. -/
theorem sweep (h : a.Distinct) :
  a.sweep.Distinct
  := by
  have hsub : a.sweep.order.toList.Sublist a.order.toList := by
    have hfilter := (a.order.toList.zipIdx.filter_sublist (p := fun p => !a.isRemoved p.2)).map Prod.fst
    rw [List.zipIdx_map_fst] at hfilter
    apply hfilter
  constructor
  · intro id hid
    apply h.lt_size id (Array.mem_toList_iff.mp (hsub.subset (Array.mem_toList_iff.mpr hid)))
  · apply h.nodup.sublist hsub

/-- Dropping the marked positions of an arena is dropping those of the function that the arena
stores. -/
theorem view_sweep (h : a.Distinct) (f : Function) :
  a.sweep.reindex.view f
    = Function.reindex { a.view f with code := ((a.view f).live.map (·.2)).toArray, pending := [] }
  := by
  have hcode : a.sweep.code = ((a.view f).live.map (·.2)).toArray := by
    apply Array.toList_inj.mp
    have hremoved : ∀ pos, (a.view f).isRemoved pos = a.isRemoved pos := fun _ => rfl
    have hview : (a.view f).code = a.code := rfl
    unfold Function.live
    rw [hview]
    simp only [hremoved, code, Arena.sweep, Array.toList_map, List.zipIdx_map, List.filterMap_map,
      List.map_filterMap, List.map_map]
    rw [← List.filterMap_eq_map, List.filterMap_filter]
    apply List.filterMap_congr
    rintro ⟨id, pos⟩ -
    cases hpos : a.isRemoved pos with
    | false => simp [hpos]
    | true => simp [hpos]
  rw [view_reindex h.sweep.lt_size]
  unfold view
  rw [hcode]
  rfl

end Distinct

/-! ### Any change -/

/-- A change does not take instructions out of an arena. -/
theorem size_insts_le (a : Arena) (c : Change) :
  a.insts.size ≤ (a.change c).2.insts.size
  := by
  cases c with
  | push inst => simp [change]
  | insert pos inst =>
    unfold change insert
    cases a.pending.isEmpty with
    | true => simp [reindex]
    | false => simp
  | replace pos inst => simp [change]
  | remove pos => exact Nat.le_refl _
  | compact =>
    unfold change compact
    cases a.pending.isEmpty with
    | true => exact Nat.le_refl _
    | false => exact Nat.le_refl _

theorem size_insts_le_run (a : Arena) (changes : List Change) :
  a.insts.size ≤ (Change.run change a changes).2.insts.size
  := by
  induction changes generalizing a with
  | nil => exact Nat.le_refl _
  | cons c changes ih => apply Nat.le_trans (a.size_insts_le c) (ih _)

/-- Every change of an arena is the same change of the function that it stores, is answered in
the same way, and keeps handles apart, as long as there is a handle for every instruction. -/
theorem Distinct.change (h : a.Distinct) {c : Change} (hroom : (a.change c).2.insts.size ≤ 2 ^ 32)
    {f : Function} (hc : c.Fits (a.view f).lines) :
  (a.view f).change c = ((a.change c).1, (a.change c).2.view f) ∧ (a.change c).2.Distinct
  := by
  have hsize : (a.view f).size = a.size := a.size_code
  cases c with
  | push inst =>
    have hfresh : a.insts.size < 2 ^ 32 := by
      apply Nat.lt_of_succ_le
      rw [Nat.succ_eq_add_one, ← size_insts_push a inst]
      apply hroom
    refine ⟨?_, h.push hfresh inst⟩
    simp only [Function.change, Arena.change]
    rw [h.view_push hfresh, hsize]
  | insert pos inst =>
    rw [Change.Fits, Function.length_lines, hsize] at hc
    simp only [Function.change, Arena.change, Function.insert, Arena.insert] at hroom ⊢
    have hpending : (a.view f).pending = a.pending := rfl
    rw [hpending]
    cases hempty : a.pending.isEmpty with
    | true =>
      simp only [hempty, if_true] at hroom ⊢
      have hfresh : a.insts.size < 2 ^ 32 := by
        apply Nat.lt_of_succ_le
        rw [Nat.succ_eq_add_one, ← size_insts_place a pos inst]
        apply hroom
      rw [h.view_place hfresh hc]
      obtain ⟨hlt, hnodup⟩ := h.place hfresh hc inst
      exact ⟨rfl, hlt, hnodup⟩
    | false => exact ⟨rfl, h⟩
  | replace pos inst =>
    refine ⟨?_, h.replace pos inst⟩
    simp only [Function.change, Arena.change]
    rw [h.view_replace]
  | remove pos => exact ⟨rfl, h.lt_size, h.nodup⟩
  | compact =>
    simp only [Function.change, Arena.change, Function.compact, Arena.compact]
    have hpending : (a.view f).pending = a.pending := rfl
    rw [hpending]
    cases a.pending.isEmpty with
    | true => exact ⟨rfl, h⟩
    | false =>
      obtain ⟨hlt, hnodup⟩ := h.sweep
      refine ⟨?_, hlt, hnodup⟩
      simp only [Bool.false_eq_true, if_false]
      rw [h.view_sweep]

/-- A sequence of changes of an arena is the same sequence of changes of the function that it
stores, as long as there is a handle for every instruction. -/
theorem Distinct.run (h : a.Distinct) {changes : List Change}
    (hroom : (Change.run Arena.change a changes).2.insts.size ≤ 2 ^ 32) {f : Function}
    (hf : (a.view f).Tidy) (hfit : Change.FitAll (a.view f).lines changes) :
  Change.run Function.change (a.view f) changes
      = ((Change.run Arena.change a changes).1, (Change.run Arena.change a changes).2.view f) ∧
    (Change.run Arena.change a changes).2.Distinct
  := by
  induction changes generalizing a with
  | nil => exact ⟨rfl, h⟩
  | cons c changes ih =>
    have hroom' : (a.change c).2.insts.size ≤ 2 ^ 32 :=
      Nat.le_trans (size_insts_le_run _ changes) hroom
    obtain ⟨hchange, hdistinct⟩ := h.change hroom' hfit.1
    obtain ⟨-, hlines, htidy⟩ := hf.change hfit.1
    rw [hchange] at hlines htidy
    obtain ⟨hrun, hdistinct'⟩ := ih hdistinct hroom htidy (hlines ▸ hfit.2)
    refine ⟨?_, hdistinct'⟩
    simp only [Change.run, hchange, hrun]

/-! ### More instructions than handles -/

/-- Instructions added one after the other are stored in their order, and get the handles of
their places in the arena. -/
theorem run_push (a : Arena) (code : List Inst) :
  (Change.run Arena.change a (code.map .push)).2.insts.toList = a.insts.toList ++ code ∧
    (Change.run Arena.change a (code.map .push)).2.order.toList
      = a.order.toList ++ (List.range' a.insts.size code.length).map .ofIndex
  := by
  induction code generalizing a with
  | nil => simp [Change.run]
  | cons inst code ih =>
    obtain ⟨hinsts, horder⟩ := ih (a.push inst)
    constructor
    · simpa [Change.run, Arena.change, Arena.push] using hinsts
    · simpa [Change.run, Arena.change, Arena.push, nextId, List.range'_succ] using horder

/-- After a list of instructions is added to an arena without any, a position shows the
instruction of the list whose place its handle stands for, which is the place itself up to a
multiple of 2³². -/
theorem inst?_run_push {code : List Inst} {pos : Nat} (h : pos < code.length) :
  (Change.run Arena.change {} (code.map .push)).2.inst? pos = code[pos % 2 ^ 32]?
  := by
  obtain ⟨hinsts, horder⟩ := run_push {} code
  unfold inst?
  rw [← Array.getElem?_toList, horder]
  simp only [← Array.getElem?_toList, hinsts]
  simp [h, InstId.index_ofIndex]

/-- Adding instructions one after the other to a plain list gives the lines of these
instructions. -/
theorem run_push_lines (lines : List Line) (code : List Inst) :
  Change.FitAll lines (code.map .push) ∧
    (Change.run Line.change lines (code.map .push)).2 = lines ++ code.map fun inst => ⟨inst, false⟩
  := by
  induction code generalizing lines with
  | nil => exact ⟨trivial, (List.append_nil lines).symm⟩
  | cons inst code ih =>
    obtain ⟨hfit, hlines⟩ := ih (lines ++ [⟨inst, false⟩])
    refine ⟨⟨trivial, hfit⟩, ?_⟩
    simpa [Change.run, Line.change] using hlines

/-- The bound on the number of instructions cannot be left out: once all handles are given out,
an arena shows something else than the list that it should store. -/
theorem exists_inst?_ne :
  ∃ changes pos, Change.FitAll [] changes ∧
    (Change.run Arena.change {} changes).2.inst? pos
      ≠ ((Change.run Line.change [] changes).2[pos]?).map Line.inst
  := by
  -- The last of these instructions gets the handle of the first.
  let code : List Inst := List.replicate (2 ^ 32) (.ret 0) ++ [.ret 1]
  obtain ⟨hfit, hlines⟩ := run_push_lines [] code
  refine ⟨code.map .push, 2 ^ 32, hfit, ?_⟩
  have hfirst : code[0]? = some (.ret 0) := by
    rw [List.getElem?_append_left (by rw [List.length_replicate]; exact Nat.two_pow_pos 32)]
    apply List.getElem?_replicate_of_lt (Nat.two_pow_pos 32)
  have hlast : code[2 ^ 32]? = some (.ret 1) := by
    rw [List.getElem?_append_right (by rw [List.length_replicate]), List.length_replicate,
      Nat.sub_self]
    rfl
  rw [inst?_run_push (List.getElem?_eq_some_iff.mp hlast).1, hlines, Nat.mod_self, hfirst,
    List.nil_append, List.getElem?_map, hlast]
  simp

end Arena

/-- Changes of an arena that starts empty tell the same as the changes of a plain list, and leave
what the list leaves: the same instructions at the same positions with the same marks, and a
label table that gives the last position of every label in the list and holds nothing else.
There have to be handles for all instructions that are added. -/
theorem arena_refines_lines {changes : List Change} (h : Change.FitAll [] changes)
    (hroom : (Change.run Arena.change {} changes).2.insts.size ≤ 2 ^ 32) :
  let made := Change.run Arena.change {} changes
  let plain := Change.run Line.change [] changes
  made.1 = plain.1 ∧
  made.2.size = plain.2.length ∧
  (∀ pos, made.2.inst? pos = (plain.2[pos]?).map Line.inst) ∧
  (∀ pos, made.2.isRemoved pos = (plain.2[pos]?).any Line.removed) ∧
  made.2.live = Line.live plain.2 ∧
  (∀ l pos, made.2.labelPosition l = .ok pos ↔ Line.LastAt plain.2 l pos) ∧
  ∀ l pos, (l, pos) ∈ made.2.labels → Line.LastAt plain.2 l pos
  := by
  -- The function that the empty arena stores.
  let f : Function := ({} : Arena).view { name := "" }
  have hblank : f.Blank := ⟨Array.map_empty, rfl, rfl⟩
  have hempty : Arena.Distinct {} := ⟨by simp, List.nodup_nil⟩
  obtain ⟨hrun, hdistinct⟩ := hempty.run hroom hblank.tidy (hblank.lines_eq.symm ▸ h)
  obtain ⟨hreplies, hsize, hinst, hremoved, hlive, hposition, hlabels⟩ :=
    changes_refine_lines hblank h
  intro made plain
  rw [hrun] at hreplies hsize hinst hremoved hlive hposition hlabels
  refine ⟨hreplies, ?_, ?_, hremoved, ?_, hposition, hlabels⟩
  · rw [← made.2.size_code]
    apply hsize
  · intro pos
    rw [← Arena.getElem?_code hdistinct.lt_size]
    apply hinst pos
  · rw [← Arena.live_view hdistinct.lt_size { name := "" }]
    apply hlive

/-- Changes with a refused one among them, after which a label stands in two places. -/
def Change.relabelling : List Change :=
  [.push (.assign 0 1), .push (.label 0), .push (.ret 0), .remove 0, .insert 0 (.label 1),
    .replace 2 (.ret 1), .compact, .insert 0 (.label 7), .push (.label 0)]

/-- A label is bound twice, an insertion is refused while a deletion is pending, and one handle
stays unused after compaction: the arena replies and ends as the lines do. -/
theorem arena_refines_lines_relabelling :
  Change.FitAll [] Change.relabelling ∧
    let made := Change.run Arena.change {} Change.relabelling
    made.1 = [.placed 0, .placed 1, .placed 2, .done,
      .refused (.invalidOperation "instruction inserted while deletions are pending"), .done,
      .dropped 1, .done, .placed 3] ∧
    made.2.insts.size = 5 ∧
    made.2.live = [(0, .label 7), (1, .label 0), (2, .ret 1), (3, .label 0)] ∧
    made.2.labelPosition 0 = .ok 3 ∧ made.2.isRemoved 0 = false
  := by
  have hfit : Change.FitAll [] Change.relabelling :=
    ⟨trivial, trivial, trivial, Nat.zero_lt_succ _, Nat.zero_le _, ⟨rfl, _, rfl, rfl⟩, trivial,
      Nat.zero_le _, trivial, trivial⟩
  have hsize : (Change.run Arena.change {} Change.relabelling).2.insts.size = 5 := rfl
  obtain ⟨hreplies, -, -, hremoved, hlive, hlabels, -⟩ :=
    arena_refines_lines hfit (hsize ▸ by decide)
  refine ⟨hfit, hreplies, hsize, hlive, (hlabels 0 3).mpr ⟨rfl, ?_⟩, hremoved 0⟩
  intro p hp
  obtain ⟨line, hline, -⟩ := Option.map_eq_some_iff.mp hp
  apply Nat.le_of_lt_succ (List.getElem?_eq_some_iff.mp hline).1

end StackCompiler.IR
