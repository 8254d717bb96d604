import Mathlib.Data.List.InsertIdx
import Mathlib.Data.List.Sort
import StackCompiler.Proofs.Code.Compaction

/-!
# Code as a list of lines

A function keeps its instructions, the positions marked for removal and the label table
apart, and a change of the code touches some of them.  `Function.lines` reads them as one
list, in which a mark stands with its instruction and moves with it.  Every change is the
change of that list under the same name (`Function.Tidy.change`), so what a sequence of
changes gives can be read off the list edited in the same way (`changes_refine_lines`).
-/

namespace StackCompiler.IR

/-- An instruction, and whether it is marked for removal. -/
structure Line where
  inst : Inst
  removed : Bool
  deriving DecidableEq, Repr

/-- A change of code. -/
inductive Change where
  | push (inst : Inst)
  | insert (pos : Nat) (inst : Inst)
  | replace (pos : Nat) (inst : Inst)
  | remove (pos : Nat)
  | compact
  deriving DecidableEq, Repr

/-- What is told of a change. -/
inductive Reply where
  | done
  /-- The position of an instruction added at the end. -/
  | placed (pos : Nat)
  | refused (cause : CompileError)
  /-- How many positions were dropped. -/
  | dropped (count : Nat)

/-- Makes a change to a function; one that is refused leaves it as it was. -/
def Function.change (f : Function) : Change → Reply × Function
  | .push inst => (.placed f.size, f.push inst)
  | .insert pos inst =>
    match f.insert pos inst with
    | .ok f' => (.done, f')
    | .error cause => (.refused cause, f)
  | .replace pos inst => (.done, f.replace pos inst)
  | .remove pos => (.done, f.remove pos)
  | .compact => (.dropped f.compact.1, f.compact.2)

namespace Line

/-- Makes a change to a plain list of lines. -/
def change (lines : List Line) : Change → Reply × List Line
  | .push inst => (.placed lines.length, lines ++ [⟨inst, false⟩])
  | .insert pos inst =>
    if lines.any removed then
      (.refused (.invalidOperation "instruction inserted while deletions are pending"), lines)
    else (.done, lines.insertIdx pos ⟨inst, false⟩)
  | .replace pos inst => (.done, lines.modify pos fun line => { line with inst := inst })
  | .remove pos => (.done, lines.modify pos fun line => { line with removed := true })
  | .compact => (.dropped (lines.countP removed), lines.filter fun line => !line.removed)

/-- The instructions that are not marked, with their positions. -/
def live (lines : List Line) : List (Nat × Inst) :=
  lines.zipIdx.filterMap fun p => if p.1.removed then none else some (p.2, p.1.inst)

/-- A label stands at a position and nowhere after it. -/
def LastAt (lines : List Line) (l : Label) (pos : Nat) : Prop :=
  (lines[pos]?).map inst = some (.label l) ∧
    ∀ p, (lines[p]?).map inst = some (.label l) → p ≤ pos

end Line

namespace Change

/-- A change at a position that there is.  Labels are neither replaced nor put in the place
of something else. -/
def Fits (lines : List Line) : Change → Prop
  | push _ | compact => True
  | insert pos _ => pos ≤ lines.length
  | replace pos inst =>
    inst.label? = none ∧ ∃ line, lines[pos]? = some line ∧ line.inst.label? = none
  | remove pos => pos < lines.length

/-- Changes each of which fits the list that the ones before it leave. -/
def FitAll : List Line → List Change → Prop
  | _, [] => True
  | lines, c :: cs => c.Fits lines ∧ FitAll (Line.change lines c).2 cs

/-- Makes changes one after the other, and collects what is told. -/
def run {σ : Type} (make : σ → Change → Reply × σ) : σ → List Change → List Reply × σ
  | s, [] => ([], s)
  | s, c :: cs =>
    let rest := run make (make s c).2 cs
    ((make s c).1 :: rest.1, rest.2)

end Change

namespace Function

variable {f : Function}

/-- The code with its marks, as one list. -/
def lines (f : Function) : List Line :=
  f.code.toList.mapIdx fun pos inst => ⟨inst, f.isRemoved pos⟩

/-- The line at a position is the instruction there, with whether it is marked. -/
theorem getElem?_lines (f : Function) (pos : Nat) :
  f.lines[pos]? = (f.code[pos]?).map fun inst => ⟨inst, f.isRemoved pos⟩
  := by
  unfold lines
  rw [List.getElem?_mapIdx, Array.getElem?_toList]

@[simp]
theorem length_lines (f : Function) :
  f.lines.length = f.size
  := by
  simp [lines, size]

/-- The instructions of the lines are the code. -/
theorem map_inst_lines (f : Function) :
  f.lines.map Line.inst = f.code.toList
  := by
  apply List.ext_getElem?
  intro pos
  rw [List.getElem?_map, getElem?_lines, Option.map_map, Array.getElem?_toList]
  exact Option.map_id'

/-- The marks of the lines are those of the positions, in their order. -/
theorem map_removed_lines (f : Function) :
  f.lines.map Line.removed = (List.range f.size).map f.isRemoved
  := by
  apply List.ext_getElem?
  intro pos
  rw [List.getElem?_map, getElem?_lines, Option.map_map, List.getElem?_map]
  by_cases h : pos < f.size
  · rw [Array.getElem?_eq_getElem h, List.getElem?_range h]
    rfl
  · rw [Array.getElem?_eq_none (Nat.le_of_not_lt h), List.getElem?_eq_none (by simpa using h)]
    rfl

/-- The lines with their positions are the instructions with theirs, each with its mark. -/
theorem zipIdx_lines (f : Function) :
  f.lines.zipIdx = f.code.toList.zipIdx.map fun p => (⟨p.1, f.isRemoved p.2⟩, p.2)
  := by
  apply List.ext_getElem?
  intro pos
  rw [List.getElem?_zipIdx, getElem?_lines, List.getElem?_map, List.getElem?_zipIdx,
    Array.getElem?_toList, Option.map_map, Option.map_map]
  simp only [Function.comp_def, Nat.zero_add]

/-- The live instructions of a function are those of its lines. -/
theorem live_eq_lines (f : Function) :
  f.live = Line.live f.lines
  := by
  unfold Line.live
  rw [zipIdx_lines, List.filterMap_map]
  rfl

theorem lines_of_pending_nil (h : f.pending = []) :
  f.lines = f.code.toList.map fun inst => ⟨inst, false⟩
  := by
  apply List.ext_getElem?
  intro pos
  rw [getElem?_lines, List.getElem?_map, Array.getElem?_toList]
  simp [isRemoved, h]

/-! ### Marks and labels in order -/

/-- The marks are of positions that there are, in ascending order, and the label table is
that of the code. -/
structure Tidy (f : Function) : Prop where
  ascending : f.pending.Pairwise (· < ·)
  lt_size : ∀ pos ∈ f.pending, pos < f.size
  labels_eq : f.labels = labelsOf f.code.toList

namespace Tidy

/-- The marks are the positions of the lines that are removed. -/
theorem pending_eq (h : f.Tidy) :
  f.pending = (List.range f.size).filter f.isRemoved
  := by
  -- Both sides ascend, so it is enough that they have the same members.
  apply h.ascending.eq_of_mem_iff (List.pairwise_lt_range.filter _)
  intro pos
  rw [List.mem_filter, List.mem_range]
  constructor
  · intro hpos
    exact ⟨h.lt_size pos hpos, List.contains_iff_mem.mpr hpos⟩
  · intro hpos
    exact List.contains_iff_mem.mp hpos.2

theorem length_pending (h : f.Tidy) :
  f.pending.length = f.lines.countP Line.removed
  := by
  have hmap : f.lines.countP Line.removed = (f.lines.map Line.removed).countP id := by
    rw [List.countP_map]
    rfl
  rw [hmap, map_removed_lines, List.countP_map, List.countP_eq_length_filter]
  exact congrArg List.length h.pending_eq

/-- A line is marked exactly if there are marks. -/
theorem any_removed (h : f.Tidy) :
  f.lines.any Line.removed = !f.pending.isEmpty
  := by
  have hlength := h.length_pending
  rw [Bool.eq_iff_iff]
  simp only [List.any_eq_true, Bool.not_eq_true', List.isEmpty_eq_false_iff]
  rw [← List.length_pos_iff, hlength, List.countP_pos_iff]

/-- A position is marked exactly if its line is, and none behind the end is. -/
theorem isRemoved_eq (h : f.Tidy) (pos : Nat) :
  f.isRemoved pos = (f.lines[pos]?).any Line.removed
  := by
  rw [getElem?_lines]
  by_cases hpos : pos < f.size
  · rw [Array.getElem?_eq_getElem hpos]
    rfl
  · rw [Array.getElem?_eq_none (Nat.le_of_not_lt hpos)]
    apply Bool.eq_false_iff.mpr
    intro hremoved
    exact hpos (h.lt_size pos (List.contains_iff_mem.mp hremoved))

end Tidy

/-! ### Pushing -/

/-- Adding an instruction at the end adds a line that is not marked. -/
theorem lines_push (h : f.Tidy) (inst : Inst) :
  (f.push inst).lines = f.lines ++ [⟨inst, false⟩]
  := by
  have hsize : f.isRemoved f.code.toList.length = false := by
    rw [Bool.eq_false_iff]
    intro hremoved
    apply Nat.lt_irrefl f.size
    apply h.lt_size
    simpa [isRemoved, size] using hremoved
  have hlines : (f.push inst).lines
      = (f.code.toList ++ [inst]).mapIdx fun pos inst => ⟨inst, f.isRemoved pos⟩ := by
    simp [lines, push, isRemoved]
  rw [hlines, List.mapIdx_concat, hsize]
  rfl

/-- Adding an instruction at the end keeps marks and labels in order. -/
theorem Tidy.push (h : f.Tidy) (inst : Inst) :
  (f.push inst).Tidy
  := by
  constructor
  · apply h.ascending
  · intro pos hpos
    have hlt := h.lt_size pos hpos
    simp only [size, IR.Function.push, Array.size_push] at *
    omega
  · cases hl : inst.label? with
    | none => simp [IR.Function.push, labelsOf_append_singleton, h.labels_eq, hl]
    | some l => simp [IR.Function.push, labelsOf_append_singleton, h.labels_eq, hl]

/-! ### Replacing -/

/-- Replacing the instruction at `pos` changes what is at `pos`, if that is in the code, and
nothing else. -/
theorem getElem?_code_replace (f : Function) (pos other : Nat) (inst : Inst) :
  (f.replace pos inst).code[other]? = (f.code[other]?).map fun old => if pos = other then inst else old
  := by
  simp only [replace, Array.getElem?_setIfInBounds]
  by_cases h : pos = other
  · subst h
    by_cases hlt : pos < f.code.size
    · simp [hlt]
    · simp [hlt]
  · simp [h]

/-- Replacing the instruction at a position replaces it in its line, and keeps the mark. -/
theorem lines_replace (f : Function) (pos : Nat) (inst : Inst) :
  (f.replace pos inst).lines = f.lines.modify pos fun line => { line with inst := inst }
  := by
  apply List.ext_getElem?
  intro other
  rw [List.getElem?_modify, getElem?_lines, getElem?_lines, getElem?_code_replace]
  cases f.code[other]? with
  | none => rfl
  | some old =>
    by_cases h : pos = other
    · simp [h, isRemoved, replace]
    · simp [h, isRemoved, replace]

/-- The label table looks at labels only. -/
theorem labelsOf_congr {code code' : List Inst} (h : code'.map Inst.label? = code.map Inst.label?) :
  labelsOf code' = labelsOf code
  := by
  -- The table is a fold over the labels and their positions.
  have hfold : ∀ code : List Inst, labelsOf code
      = (code.map Inst.label?).zipIdx.foldl
          (fun (labels : Table Label Nat) p => p.1.elim labels (labels.put · p.2)) [] := by
    intro code
    rw [List.zipIdx_map, List.foldl_map]
    apply List.foldl_ext
    rintro labels ⟨inst, pos⟩ -
    cases h : inst.label? with
    | none => simp [h]
    | some l => simp [h]
  rw [hfold, hfold, h]

/-- Replacing an instruction keeps marks and labels in order, if neither the old nor the new one
is a label. -/
theorem Tidy.replace (h : f.Tidy) {pos : Nat} {inst old : Inst} (hold : f.code[pos]? = some old)
    (hlabel : inst.label? = none) (hlabel' : old.label? = none) :
  (f.replace pos inst).Tidy
  := by
  constructor
  · apply h.ascending
  · intro p hp
    rw [size_replace]
    apply h.lt_size p hp
  · apply h.labels_eq.trans
    apply labelsOf_congr
    apply List.ext_getElem?
    intro other
    simp only [List.getElem?_map, Array.getElem?_toList, getElem?_code_replace, Option.map_map]
    by_cases hother : pos = other
    · subst hother
      simp [hold, hlabel, hlabel']
    · simp [hother, Function.comp_def]

/-! ### Removing -/

/-- Marking a position marks its line. -/
theorem lines_remove (f : Function) (pos : Nat) :
  (f.remove pos).lines = f.lines.modify pos fun line => { line with removed := true }
  := by
  apply List.ext_getElem?
  intro other
  have hcode : (f.remove pos).code = f.code := rfl
  rw [List.getElem?_modify, getElem?_lines, getElem?_lines, isRemoved_remove, hcode]
  cases f.code[other]? with
  | none => rfl
  | some inst =>
    by_cases h : pos = other
    · simp [h]
    · simp [h, Ne.symm h]

/-- Marking a position that there is keeps marks and labels in order. -/
theorem Tidy.remove (h : f.Tidy) {pos : Nat} (hpos : pos < f.size) :
  (f.remove pos).Tidy
  := by
  constructor
  · apply IdSet.pairwise_add h.ascending
  · intro p hp
    rcases (IdSet.mem_add ..).mp hp with rfl | hp
    · exact hpos
    · apply h.lt_size p hp
  · apply h.labels_eq

/-! ### Inserting -/

/-- Inserting an instruction into code without marks inserts a line that is not marked. -/
theorem lines_inserted (h : f.pending = []) (pos : Nat) (inst : Inst) :
  (f.inserted pos inst).lines = f.lines.insertIdx pos ⟨inst, false⟩
  := by
  rw [lines_of_pending_nil h, lines_of_pending_nil (by apply h), ← List.map_insertIdx]
  rfl

/-- Inserting an instruction into code without marks keeps labels in order, since their table is
made anew. -/
theorem Tidy.inserted (h : f.pending = []) (pos : Nat) (inst : Inst) :
  (f.inserted pos inst).Tidy
  := by
  have hpending : (f.inserted pos inst).pending = [] := h
  constructor
  · rw [hpending]
    apply List.Pairwise.nil
  · intro p hp
    rw [hpending] at hp
    cases hp
  · rfl

/-! ### Compacting -/

/-- What is not marked are the lines that stay. -/
theorem map_snd_live (f : Function) :
  f.live.map (·.2) = (f.lines.filter fun line => !line.removed).map Line.inst
  := by
  have hlines : ∀ (lines : List Line) (start : Nat),
      ((lines.zipIdx start).filterMap fun p =>
        if p.1.removed then none else some (p.2, p.1.inst)).map Prod.snd
      = (lines.filter fun line => !line.removed).map Line.inst := by
    intro lines
    induction lines with
    | nil =>
      intro start
      rfl
    | cons line lines ih =>
      intro start
      cases hline : line.removed with
      | false => simpa [hline] using ih (start + 1)
      | true => simpa [hline] using ih (start + 1)
  rw [live_eq_lines]
  apply hlines

/-- Lines that are not marked are given by their instructions. -/
theorem filter_unmarked (lines : List Line) :
  ((lines.filter fun line => !line.removed).map Line.inst).map (fun inst => (⟨inst, false⟩ : Line))
    = lines.filter fun line => !line.removed
  := by
  rw [List.map_map]
  apply (List.map_congr_left (g := id) _).trans (List.map_id _)
  intro line hline
  have hremoved := (List.mem_filter.mp hline).2
  rw [Bool.not_eq_true'] at hremoved
  rw [Function.comp_apply, ← hremoved]
  rfl

/-- Compacting drops exactly the marked lines and keeps the others in their order, tells how many
were dropped, and leaves labels in order. -/
theorem compact_of_tidy (h : f.Tidy) :
  f.compact.1 = f.lines.countP Line.removed ∧
    f.compact.2.lines = (f.lines.filter fun line => !line.removed) ∧ f.compact.2.Tidy
  := by
  rw [← h.length_pending]
  cases hpending : f.pending.isEmpty with
  | true =>
    have hnil : f.pending = [] := List.isEmpty_iff.mp hpending
    have hcompact : f.compact = (0, f) := if_pos hpending
    rw [hcompact, hnil]
    refine ⟨rfl, ?_, h⟩
    -- Without marks every line stays.
    symm
    rw [List.filter_eq_self, lines_of_pending_nil hnil]
    intro line hline
    obtain ⟨inst, -, rfl⟩ := List.mem_map.mp hline
    rfl
  | false =>
    have hcompact : f.compact = (f.pending.length,
        reindex { f with code := (f.live.map (·.2)).toArray, pending := [] }) :=
      if_neg (by simp [hpending])
    rw [hcompact]
    refine ⟨rfl, ?_, List.Pairwise.nil, by simp [reindex], rfl⟩
    rw [lines_of_pending_nil rfl, ← filter_unmarked, ← map_snd_live]
    rfl

/-! ### Any change -/

/-- A change of a tidy function gives the same reply as the change of its lines, leaves the lines
which that change leaves, and keeps the function tidy. -/
theorem Tidy.change (h : f.Tidy) {c : Change} (hc : c.Fits f.lines) :
  (f.change c).1 = (Line.change f.lines c).1 ∧ (f.change c).2.lines = (Line.change f.lines c).2 ∧
    (f.change c).2.Tidy
  := by
  cases c with
  | push inst => exact ⟨congrArg Reply.placed f.length_lines.symm, lines_push h inst, h.push inst⟩
  | insert pos inst =>
    simp only [IR.Function.change, Line.change, h.any_removed]
    cases hpending : f.pending.isEmpty with
    | true =>
      have hnil : f.pending = [] := List.isEmpty_iff.mp hpending
      rw [insert_of_pending_nil hnil]
      exact ⟨rfl, lines_inserted hnil pos inst, .inserted hnil pos inst⟩
    | false =>
      have hinsert : f.insert pos inst
          = .error (.invalidOperation "instruction inserted while deletions are pending") := by
        simp [IR.Function.insert, hpending]
      rw [hinsert]
      exact ⟨rfl, rfl, h⟩
  | replace pos inst =>
    obtain ⟨hlabel, line, hline, hlabel'⟩ := hc
    rw [getElem?_lines, Option.map_eq_some_iff] at hline
    obtain ⟨old, hold, rfl⟩ := hline
    exact ⟨rfl, f.lines_replace pos inst, h.replace hold hlabel hlabel'⟩
  | remove pos => exact ⟨rfl, f.lines_remove pos, h.remove (f.length_lines ▸ hc)⟩
  | compact =>
    obtain ⟨hcount, hlines, htidy⟩ := compact_of_tidy h
    exact ⟨congrArg Reply.dropped hcount, hlines, htidy⟩

/-- A sequence of changes of a function is the same sequence of changes of its lines. -/
theorem Tidy.run (h : f.Tidy) {changes : List Change} (hfit : Change.FitAll f.lines changes) :
  (Change.run IR.Function.change f changes).1 = (Change.run Line.change f.lines changes).1 ∧
    (Change.run IR.Function.change f changes).2.lines = (Change.run Line.change f.lines changes).2 ∧
    (Change.run IR.Function.change f changes).2.Tidy
  := by
  induction changes generalizing f with
  | nil => exact ⟨rfl, rfl, h⟩
  | cons c changes ih =>
    obtain ⟨hreply, hlines, htidy⟩ := h.change hfit.1
    obtain ⟨hreplies, hrest⟩ := ih htidy (hlines ▸ hfit.2)
    simp only [Change.run]
    rw [← hlines, ← hreply, ← hreplies]
    exact ⟨rfl, hrest⟩

theorem Tidy.at?_labels (h : f.Tidy) (l : Label) (pos : Nat) :
  f.labels.at? l = some pos ↔ Line.LastAt f.lines l pos
  := by
  simp only [Line.LastAt, ← List.getElem?_map, map_inst_lines]
  rw [h.labels_eq]
  apply at?_labelsOf

/-- The position of a label is what the table gives. -/
theorem labelPosition_eq_ok {l : Label} {pos : Nat} :
  f.labelPosition l = .ok pos ↔ f.labels.at? l = some pos
  := by
  unfold labelPosition
  split
  · simp_all
  · simp_all

/-- A label has one entry in the table. -/
theorem nodup_labelsOf (code : List Inst) :
  ((labelsOf code).map Prod.fst).Nodup
  := by
  apply List.foldlRecOn (motive := fun t : Table Label Nat => (t.map Prod.fst).Nodup)
  · apply List.nodup_nil
  · rintro labels hlabels ⟨inst, pos⟩ -
    cases hl : inst.label? with
    | none => simpa [hl] using hlabels
    | some l => simpa [hl] using Table.nodup_put hlabels l pos

/-- Every entry of the label table is the last position of its label. -/
theorem Tidy.lastAt_of_mem (h : f.Tidy) {l : Label} {pos : Nat} (hmem : (l, pos) ∈ f.labels) :
  Line.LastAt f.lines l pos
  := by
  apply (h.at?_labels l pos).mp
  rw [h.labels_eq] at hmem ⊢
  apply Table.at?_of_mem (nodup_labelsOf _) hmem

/-- A function without code. -/
structure Blank (f : Function) : Prop where
  code_eq : f.code = #[]
  pending_eq : f.pending = []
  labels_eq : f.labels = []

/-- Without code, marks and labels are in order. -/
theorem Blank.tidy (h : f.Blank) :
  f.Tidy
  := by
  constructor
  · rw [h.pending_eq]
    apply List.Pairwise.nil
  · simp [h.pending_eq]
  · rw [h.labels_eq, h.code_eq]
    rfl

theorem Blank.lines_eq (h : f.Blank) :
  f.lines = []
  := by
  rw [lines, h.code_eq]
  rfl

end Function

/-- Changes of a function that starts without code tell the same as the changes of a plain
list, and leave what the list leaves: the same instructions at the same positions with the
same marks, and a label table that gives the last position of every label in the list and
holds nothing else. -/
theorem changes_refine_lines {f : Function} (hf : f.Blank) {changes : List Change}
    (h : Change.FitAll [] changes) :
  let made := Change.run Function.change f changes
  let plain := Change.run Line.change [] changes
  made.1 = plain.1 ∧
  made.2.size = plain.2.length ∧
  (∀ pos, made.2.inst? pos = (plain.2[pos]?).map Line.inst) ∧
  (∀ pos, made.2.isRemoved pos = (plain.2[pos]?).any Line.removed) ∧
  made.2.live = Line.live plain.2 ∧
  (∀ l pos, made.2.labelPosition l = .ok pos ↔ Line.LastAt plain.2 l pos) ∧
  ∀ l pos, (l, pos) ∈ made.2.labels → Line.LastAt plain.2 l pos
  := by
  rw [← hf.lines_eq] at h ⊢
  obtain ⟨hreplies, hlines, htidy⟩ := hf.tidy.run h
  intro made plain
  have hplain : plain.2 = made.2.lines := hlines.symm
  rw [hplain]
  refine ⟨hreplies, made.2.length_lines.symm, ?_, htidy.isRemoved_eq, made.2.live_eq_lines, ?_, ?_⟩
  · intro pos
    rw [← List.getElem?_map, Function.map_inst_lines, Array.getElem?_toList]
    rfl
  · intro l pos
    rw [Function.labelPosition_eq_ok]
    apply htidy.at?_labels
  · intro l pos hmem
    apply htidy.lastAt_of_mem hmem

end StackCompiler.IR
