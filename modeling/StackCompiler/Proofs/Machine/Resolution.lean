import StackCompiler.Proofs.Machine.Disassembly
import StackCompiler.Proofs.Machine.Jumps

/-!
# Resolution of jumps

Items are emitted one after the other, jumps with an empty field for the distance
(`Assembler.emit`); assembly then fills in the fields (`Assembler.finish`).  It succeeds if every
jump has a label whose last place is near enough to the end of the field.  Nothing but the fields
changes.  Otherwise the first jump that cannot be filled in gives the error.
-/

namespace StackCompiler.Machine

open IR (Label labelName)

variable {n : Nat} {items : List Item} {code : List UInt8}

/-! ### Fields of jumps -/

namespace JumpForm

/-- The distances that the field of a jump can hold. -/
def Holds (distance : Int) : JumpForm → Prop
  | short => -128 ≤ distance ∧ distance ≤ 127
  | near | equal => -2147483648 ≤ distance ∧ distance ≤ 2147483647

/-- The distance that the bytes of a field spell. -/
def distance (form : JumpForm) (bytes : List UInt8) : Int := (ofBytes bytes : Int).bmod (1 <<< form.width)

/-- A distance fits into the field of a jump if it is within the bounds of the field. -/
theorem fits_iff (form : JumpForm) (d : Int) :
  form.fits d = true ↔ form.Holds d
  := by
  have hshort : ((1 <<< 7 : Nat) : Int) = 128 := rfl
  have hnear : ((1 <<< 31 : Nat) : Int) = 2147483648 := rfl
  cases form with
  | short =>
    simp only [fits, width, Holds, Nat.reduceSub, hshort, Bool.and_eq_true, decide_eq_true_eq]
    omega
  | near | equal =>
    simp only [fits, width, Holds, Nat.reduceSub, hnear, Bool.and_eq_true, decide_eq_true_eq]
    omega

/-- A field spells the distance that was put into it. -/
theorem distance_field {form : JumpForm} {d : Int} (h : form.Holds d) :
  form.distance (form.field d) = d
  := by
  cases form with
  | short =>
    have hbyte : ofBytes (field d .short) = (Int8.ofInt d).toBitVec.toNat := rfl
    have hwidth : 1 <<< width .short = 2 ^ 8 := rfl
    rw [distance, hbyte, hwidth, ← BitVec.toInt_eq_toNat_bmod]
    exact Int8.toInt_ofInt_of_le h.1 (Int.lt_add_one_of_le h.2)
  | near | equal =>
    have hwidth : 1 <<< 32 = 2 ^ 32 := rfl
    rw [distance, field, ofBytes_bytes32, width, hwidth]
    change ((Int32.ofInt d).toBitVec.toNat : Int).bmod (2 ^ 32) = d
    rw [← BitVec.toInt_eq_toNat_bmod]
    exact Int32.toInt_ofInt_of_le h.1 (Int.lt_add_one_of_le h.2)

end JumpForm

/-! ### Jumps and labels of a program -/

/-- A label is bound at an offset, and not bound again later. -/
def BoundAt (items : List Item) (l : Label) (offset : Nat) : Prop :=
  ∃ before after, items = before ++ .label l :: after ∧ .label l ∉ after ∧ offset = programSize before

namespace Jump

/-- The label of a jump is at a distance from the end of its field that the field can hold. -/
def Reaches (items : List Item) (j : Jump) (distance : Int) : Prop :=
  ∃ offset, BoundAt items j.target offset ∧ distance = offset - j.stop ∧ j.form.Holds distance

/-- Why a jump cannot be filled in. -/
inductive Fails (items : List Item) (j : Jump) : CompileError → Prop where
  | unbound (h : ∀ offset, ¬ BoundAt items j.target offset) : Fails items j (.unknownLabel j.target)
  | far {offset : Nat} (hbound : BoundAt items j.target offset)
    (hfar : ¬ j.form.Holds (offset - j.stop)) :
    Fails items j (.jumpOutOfRange (labelName j.target) j.form.width)

end Jump

/-- The jumps of a program are its items that jump, each with the end of its field. -/
theorem mem_jumps {j : Jump} :
  j ∈ jumps n items ↔ ∃ before after, items = before ++ .jump j.form j.target :: after ∧
    j.stop = n + programSize before + (Item.jump j.form j.target).size
  := by
  induction items generalizing n with
  | nil =>
    constructor
    · rintro ⟨⟩
    · rintro ⟨before, after, heq, -⟩
      cases before <;> cases heq
  | cons x xs ih =>
    have hsplit : (∃ before after, x :: xs = before ++ .jump j.form j.target :: after ∧
          j.stop = n + programSize before + (Item.jump j.form j.target).size)
        ↔ (x = .jump j.form j.target ∧ j.stop = n + (Item.jump j.form j.target).size)
          ∨ j ∈ jumps (n + x.size) xs := by
      rw [ih]
      constructor
      · rintro ⟨before, after, heq, hstop⟩
        cases before with
        | nil =>
          cases heq
          exact .inl ⟨rfl, hstop⟩
        | cons y before =>
          cases heq
          refine .inr ⟨before, after, rfl, ?_⟩
          rwa [programSize_cons, ← Nat.add_assoc] at hstop
      · rintro (⟨rfl, hstop⟩ | ⟨before, after, rfl, hstop⟩)
        · exact ⟨[], xs, rfl, hstop⟩
        · refine ⟨x :: before, after, rfl, ?_⟩
          rwa [programSize_cons, ← Nat.add_assoc]
    rw [hsplit]
    cases x with
    | jump form l =>
      rw [jumps, List.mem_cons]
      refine or_congr_left ⟨?_, ?_⟩
      · rintro rfl
        exact ⟨rfl, rfl⟩
      · rintro ⟨heq, hstop⟩
        cases heq
        rw [← hstop]
    | comment text | code inst symbol | label l =>
      constructor
      · exact .inr
      · rintro (⟨⟨⟩, -⟩ | h)
        exact h

theorem mem_jumps_cons {x : Item} {xs : List Item} {j : Jump} (h : j ∈ jumps (n + x.size) xs) :
  j ∈ jumps n (x :: xs)
  := by
  cases x with
  | jump form l => exact List.mem_cons_of_mem _ h
  | _ => exact h

/-- A label that stands in a program is bound at some offset, that of its last place. -/
theorem exists_boundAt {l : Label} (h : .label l ∈ items) :
  ∃ offset, BoundAt items l offset
  := by
  obtain ⟨ys, zs, hrev, hnot⟩ := List.eq_append_cons_of_mem (List.mem_reverse.mpr h)
  refine ⟨_, zs.reverse, ys.reverse, ?_, by rwa [List.mem_reverse], rfl⟩
  rw [← List.reverse_reverse items, hrev]
  simp

/-- The table of labels has what is bound last. -/
theorem at?_labelOffsets_iff {l : Label} {offset : Nat} :
  (labelOffsets (locate 0 items)).at? l = some offset ↔ BoundAt items l offset
  := by
  have hbound : ∀ d, BoundAt items l d → (labelOffsets (locate 0 items)).at? l = some d := by
    rintro d ⟨before, after, rfl, hnot, rfl⟩
    rw [at?_labelOffsets 0 before after hnot, Nat.zero_add]
  constructor
  · intro h
    have hmem : .label l ∈ items := by
      by_contra hnot
      rw [labelOffsets_eq, at?_foldl_bindLabel 0 [] hnot] at h
      cases h
    obtain ⟨d, hd⟩ := exists_boundAt hmem
    rw [hbound d hd] at h
    cases h
    exact hd
  · exact hbound offset

section

variable {j : Jump}

/-- The distance of a jump is found if its label is near enough. -/
theorem resolve_eq_ok_iff {distance : Int} :
  j.resolve (labelOffsets (locate 0 items)) = .ok distance ↔ j.Reaches items distance
  := by
  unfold Jump.resolve
  cases hat : (labelOffsets (locate 0 items)).at? j.target with
  | none =>
    constructor
    · rintro ⟨⟩
    · rintro ⟨offset, hbound, -⟩
      rw [at?_labelOffsets_iff.mpr hbound] at hat
      cases hat
  | some offset =>
    dsimp only
    split
    case isTrue hfits =>
      rw [JumpForm.fits_iff] at hfits
      constructor
      · rintro ⟨⟩
        exact ⟨offset, at?_labelOffsets_iff.mp hat, rfl, hfits⟩
      · rintro ⟨offset', hbound, rfl, -⟩
        rw [at?_labelOffsets_iff.mpr hbound] at hat
        cases hat
        rfl
    case isFalse hfits =>
      rw [JumpForm.fits_iff] at hfits
      constructor
      · rintro ⟨⟩
      · rintro ⟨offset', hbound, rfl, hholds⟩
        rw [at?_labelOffsets_iff.mpr hbound] at hat
        cases hat
        exact absurd hholds hfits

/-- The distance of a jump is not found if its label is not bound or too far away. -/
theorem resolve_eq_error_iff {e : CompileError} :
  j.resolve (labelOffsets (locate 0 items)) = .error e ↔ j.Fails items e
  := by
  unfold Jump.resolve
  cases hat : (labelOffsets (locate 0 items)).at? j.target with
  | none =>
    have hnone : ∀ offset, ¬ BoundAt items j.target offset := by
      intro offset hbound
      rw [at?_labelOffsets_iff.mpr hbound] at hat
      cases hat
    constructor
    · rintro ⟨⟩
      exact .unbound hnone
    · intro h
      cases h with
      | unbound _ => rfl
      | far hbound _ => exact absurd hbound (hnone _)
  | some offset =>
    have hbound := at?_labelOffsets_iff.mp hat
    have honly : ∀ offset', BoundAt items j.target offset' → offset' = offset := by
      intro offset' hbound'
      rw [at?_labelOffsets_iff.mpr hbound'] at hat
      exact Option.some.inj hat
    dsimp only
    split
    case isTrue hfits =>
      rw [JumpForm.fits_iff] at hfits
      constructor
      · rintro ⟨⟩
      · intro h
        cases h with
        | unbound hnone => exact absurd hbound (hnone offset)
        | far hbound' hfar =>
          rw [honly _ hbound'] at hfar
          exact absurd hfits hfar
    case isFalse hfits =>
      rw [JumpForm.fits_iff] at hfits
      constructor
      · rintro ⟨⟩
        exact .far hbound hfits
      · intro h
        cases h with
        | unbound hnone => exact absurd hbound (hnone offset)
        | far _ _ => rfl

end

/-! ### Bytes of a program -/

section

variable {labels : Table Label Nat}

/-- The code of a program is the bytes of its items. -/
theorem map_code_assemble (items : List Item) :
  (assemble items).map Assembled.code = encodeAll (labelOffsets (locate 0 items)) 0 items
  := by
  rw [assemble_eq]
  cases encodeAll (labelOffsets (locate 0 items)) 0 items with
  | error e => rfl
  | ok code => rfl

/-- If items are encoded, the first one is, and the others are behind it. -/
theorem encodeAll_cons_eq_ok {x : Item} {xs : List Item} (h : encodeAll labels n (x :: xs) = .ok code) :
  ∃ bytes rest, encodeItem labels n x = .ok bytes ∧ encodeAll labels (n + x.size) xs = .ok rest ∧
    code = bytes ++ rest
  := by
  rw [encodeAll] at h
  cases hx : encodeItem labels n x with
  | error e =>
    rw [hx] at h
    cases h
  | ok bytes =>
    cases hxs : encodeAll labels (n + x.size) xs with
    | error e =>
      rw [hx, hxs] at h
      cases h
    | ok rest =>
      rw [hx, hxs] at h
      cases h
      exact ⟨bytes, rest, rfl, rfl, rfl⟩

/-- Encoded items have as many bytes as their sizes say. -/
theorem length_encodeAll (h : encodeAll labels n items = .ok code) :
  code.length = programSize items
  := by
  induction items generalizing n code with
  | nil =>
    cases h
    rfl
  | cons x xs ih =>
    obtain ⟨bytes, rest, hx, hxs, rfl⟩ := encodeAll_cons_eq_ok h
    rw [List.length_append, length_encodeItem hx, ih hxs, programSize_cons]

/-- The code of a program is that of a part of it, followed by that of the rest. -/
theorem encodeAll_append {xs ys : List Item} (h : encodeAll labels n (xs ++ ys) = .ok code) :
  ∃ front back, encodeAll labels n xs = .ok front ∧
    encodeAll labels (n + programSize xs) ys = .ok back ∧ code = front ++ back
  := by
  induction xs generalizing n code with
  | nil => exact ⟨[], code, rfl, h, rfl⟩
  | cons x xs ih =>
    obtain ⟨bytes, rest, hx, hrest, rfl⟩ := encodeAll_cons_eq_ok h
    obtain ⟨front, back, hfront, hback, rfl⟩ := ih hrest
    refine ⟨bytes ++ front, back, ?_, ?_, (List.append_assoc ..).symm⟩
    · rw [encodeAll, hx, hfront]
      rfl
    · rwa [programSize_cons, ← Nat.add_assoc]

/-- The bytes of an item stand after those of the items before it. -/
theorem encodeAll_split {before after : List Item} {x : Item}
    (h : encodeAll labels n (before ++ x :: after) = .ok code) :
  ∃ front bytes back, code = front ++ (bytes ++ back) ∧ front.length = programSize before ∧
    encodeItem labels (n + programSize before) x = .ok bytes
  := by
  obtain ⟨front, rest, hfront, hrest, rfl⟩ := encodeAll_append h
  obtain ⟨bytes, back, hx, -, rfl⟩ := encodeAll_cons_eq_ok hrest
  exact ⟨front, bytes, back, rfl, length_encodeAll hfront, hx⟩

/-- Encoding fails with the error of the first jump that has no distance, and only then. -/
theorem encodeAll_eq_error_iff {e : CompileError} :
  encodeAll labels n items = .error e ↔ ∃ before j after, jumps n items = before ++ j :: after ∧
    (∀ i ∈ before, ∃ d, i.resolve labels = .ok d) ∧ j.resolve labels = .error e
  := by
  induction items generalizing n with
  | nil =>
    constructor
    · rintro ⟨⟩
    · rintro ⟨before, j, after, heq, -⟩
      cases before <;> cases heq
  | cons x xs ih =>
    cases x with
    | jump form l =>
      rw [encodeAll, encodeItem_jump, jumps]
      cases hj : (⟨form, l, n + (Item.jump form l).size⟩ : Jump).resolve labels with
      | error e' =>
        constructor
        · rintro ⟨⟩
          exact ⟨[], _, _, rfl, by simp, hj⟩
        · rintro ⟨before, j, after, heq, hbefore, he⟩
          cases before with
          | nil =>
            cases heq
            rw [hj] at he
            cases he
            rfl
          | cons i before =>
            obtain ⟨rfl, -⟩ := List.cons.inj heq
            obtain ⟨d, hd⟩ := hbefore _ List.mem_cons_self
            rw [hj] at hd
            cases hd
      | ok d =>
        have hskip : (do
              return (← (Except.ok d : Except CompileError Int).map fun d => (form.instruction d).encode)
                ++ (← encodeAll labels (n + (Item.jump form l).size) xs)) = .error e
            ↔ encodeAll labels (n + (Item.jump form l).size) xs = .error e := by
          cases encodeAll labels (n + (Item.jump form l).size) xs with
          | error e' => exact Iff.rfl
          | ok rest =>
            constructor
            · rintro ⟨⟩
            · rintro ⟨⟩
        rw [hskip, ih]
        constructor
        · rintro ⟨before, j, after, heq, hbefore, he⟩
          refine ⟨_ :: before, j, after, by rw [heq]; rfl, ?_, he⟩
          rintro i (_ | ⟨_, hi⟩)
          · exact ⟨d, hj⟩
          · exact hbefore i hi
        · rintro ⟨before, j, after, heq, hbefore, he⟩
          cases before with
          | nil =>
            cases heq
            rw [hj] at he
            cases he
          | cons i before =>
            obtain ⟨rfl, hrest⟩ := List.cons.inj heq
            exact ⟨before, j, after, hrest, fun i hi => hbefore i (List.mem_cons_of_mem _ hi), he⟩
    | comment text | code inst symbol | label l =>
      rw [encodeAll, encodeItem_of_ne (by simp), jumps, ← ih]
      · cases encodeAll labels (n + _) xs with
        | error e' => exact Iff.rfl
        | ok rest =>
          constructor
          · rintro ⟨⟩
          · rintro ⟨⟩
      · simp

/-- A program has code if every jump has a distance. -/
theorem exists_encodeAll_iff :
  (∃ code, encodeAll labels n items = .ok code) ↔ ∀ j ∈ jumps n items, ∃ d, j.resolve labels = .ok d
  := by
  constructor
  · rintro ⟨code, hcode⟩ j hj
    obtain ⟨before, after, rfl, hstop⟩ := mem_jumps.mp hj
    obtain ⟨-, bytes, -, -, -, hbytes⟩ := encodeAll_split hcode
    rw [encodeItem_jump, ← hstop] at hbytes
    obtain ⟨d, hd, -⟩ := IR.Operation.map_eq_ok hbytes
    exact ⟨d, hd⟩
  · intro h
    cases hcode : encodeAll labels n items with
    | ok code => exact ⟨code, rfl⟩
    | error e =>
      obtain ⟨before, j, after, hjumps, -, he⟩ := encodeAll_eq_error_iff.mp hcode
      have hj : j ∈ jumps n items := by
        rw [hjumps]
        exact List.mem_append_right _ List.mem_cons_self
      obtain ⟨d, hd⟩ := h j hj
      rw [he] at hd
      cases hd

/-- A byte of the code that is in no field of a jump is the byte that was emitted there. -/
theorem getElem?_encodeAll {k : Nat} (h : encodeAll labels n items = .ok code)
    (hk : ∀ j ∈ jumps n items, ¬ (j.start ≤ n + k ∧ n + k < j.stop)) :
  code[k]? = (items.flatMap Item.emitted)[k]?
  := by
  induction items generalizing n k code with
  | nil =>
    cases h
    rfl
  | cons x xs ih =>
    obtain ⟨bytes, rest, hx, hrest, rfl⟩ := encodeAll_cons_eq_ok h
    have hbytes := length_encodeItem hx
    have hemitted := x.length_emitted
    rw [List.flatMap_cons]
    by_cases hlt : k < x.size
    · -- The byte is one of the item.
      rw [List.getElem?_append_left (by omega), List.getElem?_append_left (by omega)]
      cases x with
      | jump form l =>
        rw [encodeItem_jump] at hx
        obtain ⟨d, -, rfl⟩ := IR.Operation.map_eq_ok hx
        have hopcode : k < form.opcode.length := by
          have hnot := hk _ List.mem_cons_self
          have hsize : (Item.jump form l).size = form.opcode.length + form.fieldSize :=
            form.size_instruction 0
          simp only [Jump.start] at hnot
          omega
        rw [Item.emitted, form.encode_instruction, form.encode_instruction,
          List.getElem?_append_left hopcode, List.getElem?_append_left hopcode]
      | _ =>
        cases hx
        rfl
    · rw [List.getElem?_append_right (by omega), List.getElem?_append_right (by omega), hbytes, hemitted]
      apply ih hrest
      intro j hj
      have hnot := hk j (mem_jumps_cons hj)
      omega

end

/-! ### Assembly -/

/-- The field of a jump in code. -/
def Jump.fieldOf (code : List UInt8) (j : Jump) : List UInt8 := (code.drop j.start).take j.form.fieldSize

/-- The field of a jump holds the distance to its label. -/
theorem distance_fieldOf (h : encodeAll (labelOffsets (locate 0 items)) 0 items = .ok code) {j : Jump}
    (hj : j ∈ jumps 0 items) {distance : Int} (hd : j.Reaches items distance) :
  j.form.distance (j.fieldOf code) = distance
  := by
  have hresolve := resolve_eq_ok_iff.mpr hd
  obtain ⟨offset, -, -, hholds⟩ := hd
  obtain ⟨before, after, hitems, hstop⟩ := mem_jumps.mp hj
  rw [Nat.zero_add] at hstop
  obtain ⟨form, target, stop⟩ := j
  dsimp only at hitems hstop hholds
  subst hstop
  have hcode := h
  rw [hitems] at hcode
  obtain ⟨front, bytes, back, rfl, hfront, hbytes⟩ := encodeAll_split hcode
  rw [← hitems, encodeItem_jump, Nat.zero_add, hresolve] at hbytes
  cases hbytes
  dsimp only at h ⊢
  have hstart : Jump.start ⟨form, target, programSize before + (Item.jump form target).size⟩
      = (front ++ form.opcode).length := by
    have hsize : (Item.jump form target).size = form.opcode.length + form.fieldSize :=
      form.size_instruction 0
    rw [Jump.start, List.length_append, hfront, hsize]
    dsimp only
    omega
  rw [form.encode_instruction, Jump.fieldOf, hstart, List.append_assoc, ← List.append_assoc front,
    List.drop_left, List.take_left' (form.length_field distance)]
  exact JumpForm.distance_field hholds

/-- The code that assembly leaves is that of the encoded items. -/
theorem encodeAll_of_assemble {a : Assembled} (h : assemble items = .ok a) :
  encodeAll (labelOffsets (locate 0 items)) 0 items = .ok a.code
  := by
  rw [← map_code_assemble, h]
  rfl

/-- Assembly succeeds if the items can be encoded. -/
theorem exists_assemble_iff (items : List Item) :
  (∃ a, assemble items = .ok a) ↔ ∃ code, encodeAll (labelOffsets (locate 0 items)) 0 items = .ok code
  := by
  rw [← map_code_assemble]
  cases assemble items with
  | ok a => exact ⟨fun _ => ⟨_, rfl⟩, fun _ => ⟨_, rfl⟩⟩
  | error e =>
    constructor
    · rintro ⟨a, ⟨⟩⟩
    · rintro ⟨code, ⟨⟩⟩

/-- Assembly fails with the error with which the encoding of items fails. -/
theorem assemble_eq_error_iff {e : CompileError} :
  assemble items = .error e ↔ encodeAll (labelOffsets (locate 0 items)) 0 items = .error e
  := by
  rw [← map_code_assemble]
  cases assemble items with
  | ok a =>
    constructor
    · rintro ⟨⟩
    · rintro ⟨⟩
  | error e' =>
    constructor
    · rintro ⟨⟩
      rfl
    · rintro ⟨⟩
      rfl

/-- Assembly succeeds if every jump reaches its label.  Then the code has the size of the program, the
field of each jump holds the distance from its end to the label, and all other bytes are those that
were emitted.  Otherwise the error is that of the first jump that fails. -/
theorem assemble_resolves (items : List Item) :
  ((∃ a, assemble items = .ok a) ↔ ∀ j ∈ jumps 0 items, ∃ d, j.Reaches items d) ∧
  (∀ a, assemble items = .ok a →
    a.code.length = programSize items ∧
    (∀ j ∈ jumps 0 items, ∀ d, j.Reaches items d → j.form.distance (j.fieldOf a.code) = d) ∧
    ∀ k, (∀ j ∈ jumps 0 items, ¬ (j.start ≤ k ∧ k < j.stop)) →
      a.code[k]? = (items.flatMap Item.emitted)[k]?) ∧
  ∀ e, assemble items = .error e ↔ ∃ before j after, jumps 0 items = before ++ j :: after ∧
    (∀ i ∈ before, ∃ d, i.Reaches items d) ∧ j.Fails items e
  := by
  refine ⟨?_, fun a ha => ?_, fun e => ?_⟩
  · rw [exists_assemble_iff, exists_encodeAll_iff]
    simp only [resolve_eq_ok_iff]
  · have hcode := encodeAll_of_assemble ha
    refine ⟨length_encodeAll hcode, fun j hj d hd => distance_fieldOf hcode hj hd, fun k hk => ?_⟩
    apply getElem?_encodeAll hcode
    rwa [Nat.zero_add]
  · rw [assemble_eq_error_iff, encodeAll_eq_error_iff]
    simp only [resolve_eq_ok_iff, resolve_eq_error_iff]

end StackCompiler.Machine
