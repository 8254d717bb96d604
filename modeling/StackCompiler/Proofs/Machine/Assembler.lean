import Mathlib.Data.List.Basic
import StackCompiler.Machine.Assembly

/-!
# The assembler, without a buffer

The code that the assembler leaves is described item by item.  The size of an item does not
depend on where its labels are, so `labelOffsets` can find the labels first, and `encodeItem`
then gives the bytes of an item at its offset, with the distances filled in.  Emitting a
program with empty fields and filling them in afterwards leaves the same bytes, or the same
error (`assemble_eq`).
-/

namespace StackCompiler.Machine

open IR (Label labelName)

/-! ### Fields of jumps -/

namespace JumpForm

/-- Whether a distance fits into the field. -/
def fits (form : JumpForm) (distance : Int) : Bool :=
  -(1 <<< (form.width - 1) : Nat) ≤ distance && distance < (1 <<< (form.width - 1) : Nat)

/-- The bytes before the field. -/
def opcode : JumpForm → List UInt8
  | near => [0xE9]
  | short => [0xEB]
  | equal => [0x0F, 0x84]

/-- The number of bytes of the field. -/
def fieldSize (form : JumpForm) : Nat := form.width / 8

/-- The bytes of the field. -/
def field (distance : Int) : JumpForm → List UInt8
  | short => [(Int8.ofInt distance).toUInt8]
  | near | equal => bytes32 (Int32.ofInt distance).toUInt32

theorem encode_instruction (form : JumpForm) (d : Int) :
  (form.instruction d).encode = form.opcode ++ form.field d
  := by
  cases form <;> rfl

theorem length_field (form : JumpForm) (d : Int) :
  (form.field d).length = form.fieldSize
  := by
  cases form with
  | short => rfl
  | near | equal => apply length_bytes32 _

theorem size_instruction (form : JumpForm) (d : Int) :
  (form.instruction d).size = form.opcode.length + form.fieldSize
  := by
  rw [Instruction.size, encode_instruction, List.length_append, length_field]

end JumpForm

/-! ### Items and their offsets -/

/-- The items with the offset at which each starts. -/
def locate : Nat → List Item → List (Nat × Item)
  | _, [] => []
  | offset, item :: items => (offset, item) :: locate (offset + item.size) items

/-- The offsets of the labels; a label bound twice has its last offset. -/
def labelOffsets (located : List (Nat × Item)) : Table Label Nat :=
  located.foldl (fun labels (offset, item) =>
    match item with
    | .label l => labels.put l offset
    | _ => labels) []

theorem programSize_cons (x : Item) (xs : List Item) :
  programSize (x :: xs) = x.size + programSize xs
  := rfl

theorem programSize_append (xs ys : List Item) :
  programSize (xs ++ ys) = programSize xs + programSize ys
  := by
  induction xs with
  | nil => apply (Nat.zero_add _).symm
  | cons x xs ih => rw [List.cons_append, programSize_cons, programSize_cons, ih, Nat.add_assoc]

theorem locate_append (n : Nat) (xs ys : List Item) :
  locate n (xs ++ ys) = locate n xs ++ locate (n + programSize xs) ys
  := by
  induction xs generalizing n with
  | nil => rfl
  | cons x xs ih =>
    rw [List.cons_append, locate, locate, ih, programSize_cons, Nat.add_assoc]
    rfl

/-- An item is located inside its program. -/
theorem mem_locate {n offset : Nat} {x : Item} {xs : List Item} (h : (offset, x) ∈ locate n xs) :
  x ∈ xs ∧ offset + x.size ≤ n + programSize xs
  := by
  induction xs generalizing n with
  | nil => cases h
  | cons y xs ih =>
    rw [programSize_cons]
    rcases List.mem_cons.mp h with h | h
    · cases h
      exact ⟨List.mem_cons_self, by omega⟩
    · obtain ⟨hmem, hle⟩ := ih h
      exact ⟨List.mem_cons_of_mem _ hmem, by omega⟩

/-- An item of joined lists is in one of them, after those before it. -/
theorem mem_locate_flatMap {α : Type} {g : α → List Item} {n offset : Nat} {x : Item} {as : List α}
    (h : (offset, x) ∈ locate n (as.flatMap g)) :
  ∃ before a after, as = before ++ a :: after ∧
    (offset, x) ∈ locate (n + programSize (before.flatMap g)) (g a)
  := by
  induction as generalizing n with
  | nil => cases h
  | cons a as ih =>
    rw [List.flatMap_cons, locate_append] at h
    rcases List.mem_append.mp h with h | h
    · exact ⟨[], a, as, rfl, h⟩
    · obtain ⟨before, b, after, rfl, hb⟩ := ih h
      refine ⟨a :: before, b, after, rfl, ?_⟩
      rwa [List.flatMap_cons, programSize_append, ← Nat.add_assoc]

/-- Takes in the label that an item is. -/
def bindLabel (labels : Table Label Nat) (entry : Nat × Item) : Table Label Nat :=
  match entry.2 with
  | .label l => labels.put l entry.1
  | _ => labels

theorem labelOffsets_eq (located : List (Nat × Item)) :
  labelOffsets located = located.foldl bindLabel []
  := rfl

/-- A label that is not among the items keeps its offset. -/
theorem at?_foldl_bindLabel {l : Label} {ys : List Item} (m : Nat) (labels : Table Label Nat)
    (h : .label l ∉ ys) :
  ((locate m ys).foldl bindLabel labels).at? l = labels.at? l
  := by
  induction ys generalizing m labels with
  | nil => rfl
  | cons y ys ih =>
    rw [List.mem_cons, not_or] at h
    rw [locate, List.foldl_cons, ih _ _ h.2]
    cases y with
    | label l' =>
      refine (Table.at?_put ..).trans (if_neg ?_)
      rintro rfl
      apply h.1 rfl
    | _ => rfl

theorem at?_labelOffsets {l : Label} (n : Nat) (xs ys : List Item) (h : .label l ∉ ys) :
  (labelOffsets (locate n (xs ++ .label l :: ys))).at? l = some (n + programSize xs)
  := by
  rw [labelOffsets_eq, locate_append, List.foldl_append, locate, List.foldl_cons,
    at?_foldl_bindLabel _ _ h]
  apply (Table.at?_put ..).trans (if_pos rfl)

/-- A label has an offset within the program. -/
theorem exists_labelOffset {l : Label} {xs : List Item} (h : .label l ∈ xs) :
  ∃ d, (labelOffsets (locate 0 xs)).at? l = some d ∧ d ≤ programSize xs
  := by
  -- The last place where the label stands counts.
  obtain ⟨ys, zs, hrev, hnot⟩ := List.eq_append_cons_of_mem (List.mem_reverse.mpr h)
  have hxs : xs = zs.reverse ++ .label l :: ys.reverse := by
    rw [← List.reverse_reverse xs, hrev]
    simp
  rw [hxs]
  refine ⟨_, at?_labelOffsets 0 _ _ (by rwa [List.mem_reverse]), ?_⟩
  rw [programSize_append]
  omega

/-! ### Bytes of items -/

/-- The bytes of an item at an offset. -/
def encodeItem (labels : Table Label Nat) (offset : Nat) :
    Item → Except CompileError (List UInt8)
  | .comment _ | .label _ => .ok []
  | .code inst _ => .ok inst.encode
  | .jump form target =>
    match labels.at? target with
    | none => .error (.unknownLabel target)
    | some destination =>
      let distance : Int := destination - (offset + (Item.jump form target).size : Nat)
      if form.fits distance then .ok (form.instruction distance).encode
      else .error (.jumpOutOfRange (labelName target) form.width)

/-- The bytes of an item before the distances are known. -/
def Item.emitted : Item → List UInt8
  | .comment _ | .label _ => []
  | .code inst _ => inst.encode
  | .jump form _ => (form.instruction 0).encode

theorem Item.length_emitted (item : Item) :
  item.emitted.length = item.size
  := by
  cases item <;> rfl

/-- A jump of a program, with the offset at which its field ends. -/
structure Jump where
  form : JumpForm
  target : Label
  stop : Nat
  deriving DecidableEq, Repr

/-- The jumps of a program that starts at an offset, in their order. -/
def jumps : Nat → List Item → List Jump
  | _, [] => []
  | offset, .jump form l :: items =>
    ⟨form, l, offset + (Item.jump form l).size⟩ :: jumps (offset + (Item.jump form l).size) items
  | offset, item :: items => jumps (offset + item.size) items

namespace Jump

/-- Where the field starts. -/
def start (j : Jump) : Nat := j.stop - j.form.fieldSize

/-- The distance of a jump, or why it has none. -/
def resolve (labels : Table Label Nat) (j : Jump) : Except CompileError Int :=
  match labels.at? j.target with
  | none => .error (.unknownLabel j.target)
  | some offset =>
    if j.form.fits ((offset : Int) - j.stop) then .ok ((offset : Int) - j.stop)
    else .error (.jumpOutOfRange (labelName j.target) j.form.width)

end Jump

/-- The bytes of items from an offset on. -/
def encodeAll (labels : Table Label Nat) : Nat → List Item → Except CompileError (List UInt8)
  | _, [] => .ok []
  | offset, item :: items => do
    return (← encodeItem labels offset item) ++ (← encodeAll labels (offset + item.size) items)

section

variable {labels : Table Label Nat}

/-- The bytes of a jump are those of the instruction with the distance that is found for it. -/
theorem encodeItem_jump (n : Nat) (form : JumpForm) (l : Label) :
  encodeItem labels n (.jump form l)
    = ((⟨form, l, n + (Item.jump form l).size⟩ : Jump).resolve labels).map
        fun distance => (form.instruction distance).encode
  := by
  unfold encodeItem Jump.resolve
  dsimp only
  cases labels.at? l with
  | none => rfl
  | some offset =>
    dsimp only
    split <;> rfl

theorem encodeItem_of_ne {n : Nat} {item : Item} (h : ∀ form l, item ≠ .jump form l) :
  encodeItem labels n item = .ok item.emitted
  := by
  cases item with
  | jump form l => exact absurd rfl (h form l)
  | _ => rfl

/-- The bytes of an item are as many as its size says. -/
theorem length_encodeItem {n : Nat} {item : Item} {bytes : List UInt8}
    (h : encodeItem labels n item = .ok bytes) :
  bytes.length = item.size
  := by
  cases item with
  | jump form l =>
    rw [encodeItem_jump] at h
    cases hj : (⟨form, l, n + (Item.jump form l).size⟩ : Jump).resolve labels with
    | error e =>
      rw [hj] at h
      cases h
    | ok d =>
      rw [hj] at h
      cases h
      apply (form.size_instruction d).trans (form.size_instruction 0).symm
  | _ =>
    cases h
    rfl

/-! ### Writing into the buffer -/

/-- Writing bytes over as many others changes those, and nothing before or after them. -/
theorem toList_overwrite {buffer : Array UInt8} {front old bytes back : List UInt8}
    (hbuffer : buffer.toList = front ++ (old ++ back)) (hlength : old.length = bytes.length) :
  (overwrite buffer front.length bytes).toList = front ++ (bytes ++ back)
  := by
  induction bytes generalizing buffer front old with
  | nil =>
    cases List.length_eq_zero_iff.mp hlength
    apply hbuffer
  | cons byte bytes ih =>
    obtain ⟨x, old, rfl⟩ := List.exists_cons_of_length_eq_add_one hlength
    have hset : (buffer.setIfInBounds front.length byte).toList
        = (front ++ [byte]) ++ (old ++ back) := by
      rw [Array.toList_setIfInBounds, hbuffer]
      simp
    have hrest := ih hset (Nat.succ.inj hlength)
    rw [List.length_append, List.length_singleton] at hrest
    rw [overwrite, hrest]
    simp

/-- The field that a jump leaves to be filled in. -/
def Jump.fixup (j : Jump) : Fixup where
  offset := j.start
  target := j.target
  width := j.form.width

/-- The bytes that fill in the field of a jump are those of its distance. -/
theorem bytes_fixup (j : Jump) (d : Int) :
  j.fixup.bytes d = j.form.field d
  := by
  obtain ⟨form, target, stop⟩ := j
  cases form <;> rfl

/-- Filling in a field is resolving its jump and writing the distance into the buffer. -/
theorem fill_fixup {j : Jump} (hstop : j.form.fieldSize ≤ j.stop) (buffer : Array UInt8) :
  Assembler.fill labels buffer j.fixup
    = (j.resolve labels).map fun distance => overwrite buffer j.start (j.form.field distance)
  := by
  have hend : j.fixup.stop = j.stop := Nat.sub_add_cancel hstop
  have htarget : j.fixup.target = j.target := rfl
  unfold Assembler.fill Jump.resolve
  rw [hend, htarget]
  cases labels.at? j.target with
  | none => rfl
  | some offset =>
    have hfits : j.fixup.fits ((offset : Int) - j.stop) = j.form.fits ((offset : Int) - j.stop) := rfl
    dsimp only
    rw [hfits, bytes_fixup]
    split
    · rfl
    · rfl

/-- Filling in the field of an item, with other code before and after it, gives the bytes of the
item at its offset, or its error. -/
theorem foldlM_fill_item (labels : Table Label Nat) (front back : List UInt8) (item : Item)
    {buffer : Array UInt8} (hbuffer : buffer.toList = front ++ (item.emitted ++ back)) :
  (((jumps front.length [item]).map Jump.fixup).foldlM (Assembler.fill labels) buffer).map Array.toList
    = (encodeItem labels front.length item).map fun bytes => front ++ (bytes ++ back)
  := by
  cases item with
  | jump form l =>
    have hsize : (Item.jump form l).size = form.opcode.length + form.fieldSize := form.size_instruction 0
    have hstart : (⟨form, l, front.length + (Item.jump form l).size⟩ : Jump).start
        = (front ++ form.opcode).length := by
      rw [Jump.start, hsize, List.length_append, ← Nat.add_assoc, Nat.add_sub_cancel]
    rw [Item.emitted, form.encode_instruction, List.append_assoc, ← List.append_assoc] at hbuffer
    rw [jumps, jumps, List.map_singleton, List.foldlM_cons, fill_fixup (by dsimp only; omega), hstart,
      encodeItem_jump]
    cases (⟨form, l, front.length + (Item.jump form l).size⟩ : Jump).resolve labels with
    | error e => rfl
    | ok d =>
      have hfield : (form.field 0).length = (form.field d).length := by
        rw [form.length_field, form.length_field]
      have hwritten := toList_overwrite hbuffer hfield
      rw [List.append_assoc, ← List.append_assoc form.opcode, ← form.encode_instruction] at hwritten
      exact congrArg Except.ok hwritten
  | _ => exact congrArg Except.ok hbuffer

/-! ### Emitting and filling in -/

theorem jumps_cons (n : Nat) (x : Item) (xs : List Item) :
  jumps n (x :: xs) = jumps n [x] ++ jumps (n + x.size) xs
  := by
  cases x <;> rfl

namespace Assembler

/-- What emitting an item adds to the buffer, to the listing, to the labels and to the fields that
have to be filled in. -/
theorem emit_eq (a : Assembler) (item : Item) :
  (a.emit item).code.toList = a.code.toList ++ item.emitted ∧
    (a.emit item).listing.toList = a.listing.toList ++ [item.line a.code.size] ∧
    (a.emit item).labels = bindLabel a.labels (a.code.size, item) ∧
    (a.emit item).fixups.toList = a.fixups.toList ++ (jumps a.code.size [item]).map Jump.fixup
  := by
  cases item with
  | comment text => simp [emit, Item.emitted, bindLabel, jumps]
  | code inst symbol => simp [emit, Item.emitted, bindLabel, jumps]
  | label l => simp [emit, Item.emitted, bindLabel, jumps]
  | jump form l =>
    have hsize : (a.code ++ (form.instruction 0).encode).size = a.code.size + (Item.jump form l).size := by
      rw [← Array.length_toList]
      simp [Item.size, Instruction.size]
    simp [emit, Item.emitted, bindLabel, jumps, Jump.fixup, Jump.start, JumpForm.fieldSize, hsize]

/-- What emitting a program adds. -/
theorem foldl_emit (a : Assembler) (items : List Item) :
  (items.foldl emit a).code.toList = a.code.toList ++ items.flatMap Item.emitted ∧
    (items.foldl emit a).listing.toList
      = a.listing.toList ++ (locate a.code.size items).map (fun entry => entry.2.line entry.1) ∧
    (items.foldl emit a).labels = (locate a.code.size items).foldl bindLabel a.labels ∧
    (items.foldl emit a).fixups.toList = a.fixups.toList ++ (jumps a.code.size items).map Jump.fixup
  := by
  induction items generalizing a with
  | nil => simp [locate, jumps]
  | cons x xs ih =>
    obtain ⟨hcode, hlisting, hlabels, hfixups⟩ := a.emit_eq x
    have hsize : (a.emit x).code.size = a.code.size + x.size := by
      rw [← Array.length_toList, hcode, List.length_append, x.length_emitted, Array.length_toList]
    obtain ⟨hcodes, hlistings, hlabelss, hfixupss⟩ := ih (a.emit x)
    rw [hsize] at hlistings hlabelss hfixupss
    refine ⟨?_, ?_, ?_, ?_⟩
    · rw [List.foldl_cons, hcodes, hcode, List.flatMap_cons, List.append_assoc]
    · rw [List.foldl_cons, hlistings, hlisting, locate, List.map_cons, List.append_assoc]
      rfl
    · rw [List.foldl_cons, hlabelss, hlabels, locate, List.foldl_cons]
    · rw [List.foldl_cons, hfixupss, hfixups, jumps_cons _ x xs, List.map_append, List.append_assoc]

end Assembler

/-- Filling in the fields of a program, with other code before and after it, gives the bytes of
its items, or the error of the first item that has none. -/
theorem foldlM_fill (labels : Table Label Nat) (front back : List UInt8) (items : List Item)
    {buffer : Array UInt8} (hbuffer : buffer.toList = front ++ (items.flatMap Item.emitted ++ back)) :
  (((jumps front.length items).map Jump.fixup).foldlM (Assembler.fill labels) buffer).map Array.toList
    = (encodeAll labels front.length items).map fun bytes => front ++ (bytes ++ back)
  := by
  induction items generalizing front buffer with
  | nil => exact congrArg Except.ok hbuffer
  | cons x xs ih =>
    rw [List.flatMap_cons, List.append_assoc] at hbuffer
    have hx := foldlM_fill_item labels front _ x hbuffer
    rw [jumps_cons, List.map_append, List.foldlM_append, encodeAll]
    cases hfirst : ((jumps front.length [x]).map Jump.fixup).foldlM (Assembler.fill labels) buffer with
    | error e =>
      cases hitem : encodeItem labels front.length x with
      | error e' =>
        rw [hfirst, hitem] at hx
        cases hx
        rfl
      | ok bytes =>
        rw [hfirst, hitem] at hx
        cases hx
    | ok filled =>
      cases hitem : encodeItem labels front.length x with
      | error e =>
        rw [hfirst, hitem] at hx
        cases hx
      | ok bytes =>
        rw [hfirst, hitem] at hx
        -- The bytes of the first item are part of what is before the others.
        have hfilled : filled.toList = (front ++ bytes) ++ (xs.flatMap Item.emitted ++ back) := by
          rw [List.append_assoc]
          apply Except.ok.inj hx
        have hrest := ih (front ++ bytes) hfilled
        rw [List.length_append, length_encodeItem hitem] at hrest
        refine hrest.trans ?_
        cases encodeAll labels (front.length + x.size) xs with
        | error e => rfl
        | ok rest =>
          refine congrArg Except.ok ?_
          simp only [List.append_assoc]

end

/-- A program is assembled by finding its labels first, and then encoding item by item. -/
theorem assemble_eq (items : List Item) :
  assemble items = (encodeAll (labelOffsets (locate 0 items)) 0 items).map fun code =>
    { code, listing := (locate 0 items).map fun entry => entry.2.line entry.1 }
  := by
  obtain ⟨hcode, hlisting, hlabels, hfixups⟩ := Assembler.foldl_emit {} items
  have hlabels' : (items.foldl Assembler.emit {}).labels = labelOffsets (locate 0 items) := hlabels
  have hfixups' : (items.foldl Assembler.emit {}).fixups.toList = (jumps 0 items).map Jump.fixup := hfixups
  have hbuffer : (items.foldl Assembler.emit {}).code.toList
      = [] ++ (items.flatMap Item.emitted ++ []) := by
    rw [hcode]
    simp
  have hfill := foldlM_fill (labelOffsets (locate 0 items)) [] [] items hbuffer
  have hencode : encodeAll (labelOffsets (locate 0 items)) 0 items
      = (((jumps 0 items).map Jump.fixup).foldlM (Assembler.fill (labelOffsets (locate 0 items)))
          (items.foldl Assembler.emit {}).code).map Array.toList := by
    simp only [List.nil_append, List.append_nil, List.length_nil] at hfill
    rw [hfill]
    cases encodeAll (labelOffsets (locate 0 items)) 0 items with
    | error e => rfl
    | ok code => rfl
  unfold assemble Assembler.finish
  rw [← Array.foldlM_toList, hfixups', hlabels', hlisting, hencode]
  cases ((jumps 0 items).map Jump.fixup).foldlM (Assembler.fill (labelOffsets (locate 0 items)))
      (items.foldl Assembler.emit {}).code with
  | error e => rfl
  | ok code => rfl

end StackCompiler.Machine
