import Mathlib.Logic.Relation
import StackCompiler.Proofs.Machine.Calls
import StackCompiler.Proofs.Machine.Relocations

/-!
# Execution of loaded code

The loader puts addresses into the fields that the relocations of machine code name.  The code that
results is that of the same program with these addresses in its loads.  `Step` executes it byte by
byte: it decodes the instruction at an offset and carries it out, goes where a jump leads, or waits
for a helper to return.
-/

namespace StackCompiler.Machine

open IR (Label)
open Register (rax rsp rbp)

/-! ### Loading -/

/-- The address that a relocation asks for. -/
def Relocation.address (m : Image) (strings : List String) : Relocation → UInt64
  | helper _ h => m.helper h
  | string _ index => m.string (strings.getD index "")

/-- Code in memory, where every relocation has its address. -/
def NativeFunction.loaded (m : Image) (n : NativeFunction) : List UInt8 :=
  n.relocations.foldl (fun code r => patch code r.offset (bytes64 (r.address m n.strings))) n.code

/-- The item that a fragment is in memory. -/
def Fragment.placed (m : Image) : Fragment → Item
  | .item i => i.bare
  | .helperAddress dst helper => .code (.movWide dst (m.helper helper))
  | .stringAddress dst text => .code (.movWide dst (m.string text))

theorem Fragment.size_placed (m : Image) (x : Fragment) :
  (x.placed m).size = x.size
  := by
  cases x with
  | item i => exact i.size_bare
  | _ => rfl

theorem programSize_map_placed (m : Image) (xs : List Fragment) :
  programSize (xs.map (Fragment.placed m)) = codeSize xs
  := by
  induction xs with
  | nil => rfl
  | cons x xs ih => rw [List.map_cons, programSize_cons, ih, x.size_placed, codeSize_cons]

theorem patch_append {front old new back : List UInt8} (h : old.length = new.length) :
  patch (front ++ (old ++ back)) front.length new = front ++ (new ++ back)
  := by
  unfold patch
  rw [List.take_left, ← h, ← List.length_append, ← List.append_assoc front old back, List.drop_left,
    List.append_assoc]

/-- Patching a load puts the address into it. -/
theorem patch_movWide (dst : Register) (v w : UInt64) (front back : List UInt8) :
  patch (front ++ ((Instruction.movWide dst v).encode ++ back)) (front.length + 2) (bytes64 w)
    = front ++ ((Instruction.movWide dst w).encode ++ back)
  := by
  have hsplit : ∀ u : UInt64, (Instruction.movWide dst u).encode
      = [(Rex.wideOperand dst).byte, 0xB8 + dst.field] ++ bytes64 u := fun _ => rfl
  have hlength : (front ++ [(Rex.wideOperand dst).byte, 0xB8 + dst.field]).length = front.length + 2 :=
    List.length_append
  rw [hsplit, hsplit, List.append_assoc, List.append_assoc, ← List.append_assoc front,
    ← List.append_assoc front, ← hlength]
  exact patch_append ((length_bytes64 v).trans (length_bytes64 w).symm)

theorem encodeItem_bare {labels : Table Label Nat} {n : Nat} (item : Item) :
  encodeItem labels n item.bare = encodeItem labels n item
  := by
  cases item <;> rfl

/-- The bytes of items do not depend on the names of what they refer to. -/
theorem encodeAll_bare {labels : Table Label Nat} (n : Nat) (items : List Item) :
  encodeAll labels n (items.map Item.bare) = encodeAll labels n items
  := by
  induction items generalizing n with
  | nil => rfl
  | cons item items ih => rw [List.map_cons, encodeAll, encodeAll, encodeItem_bare, item.size_bare, ih]

/-- The loader puts into the loads of a program the addresses of what they refer to. -/
theorem encodeAll_placed (m : Image) {helpers : HelperTable} {labels : Table Label Nat}
    {strings : List String} {xs : List Fragment} {rs : List Relocation} (front : List UInt8)
    {code : List UInt8} (hcode : encodeAll labels front.length (xs.map (Fragment.bare helpers)) = .ok code)
    (hmarks : List.Forall₂ (Marks strings) (sites front.length xs) rs) :
  ∃ loaded, encodeAll labels front.length (xs.map (Fragment.placed m)) = .ok loaded ∧
    rs.foldl (fun code r => patch code r.offset (bytes64 (r.address m strings))) (front ++ code)
      = front ++ loaded
  := by
  induction xs generalizing rs front code with
  | nil =>
    cases hcode
    cases hmarks
    exact ⟨[], rfl, rfl⟩
  | cons x xs ih =>
    rw [List.map_cons] at hcode
    obtain ⟨bytes, rest, hx, hrest, rfl⟩ := encodeAll_cons_eq_ok hcode
    rw [x.size_bare] at hrest
    -- What is left to do once the bytes of this fragment are in place.
    have hgo : ∀ {bytes' : List UInt8} {rs' : List Relocation}, bytes'.length = x.size →
        encodeItem labels front.length (x.placed m) = .ok bytes' →
        List.Forall₂ (Marks strings) (sites (front.length + x.size) xs) rs' →
        ∃ loaded, encodeAll labels front.length ((x :: xs).map (Fragment.placed m)) = .ok loaded ∧
          rs'.foldl (fun code r => patch code r.offset (bytes64 (r.address m strings)))
            (front ++ (bytes' ++ rest)) = front ++ loaded := by
      intro bytes' rs' hlength hitem hrs'
      have hfront : (front ++ bytes').length = front.length + x.size := by
        rw [List.length_append, hlength]
      rw [← hfront] at hrest hrs'
      obtain ⟨loaded, hloaded, hfold⟩ := ih (front ++ bytes') hrest hrs'
      refine ⟨bytes' ++ loaded, ?_, ?_⟩
      · rw [List.map_cons, encodeAll, hitem, x.size_placed, ← hfront, hloaded]
        rfl
      · rw [← List.append_assoc, hfold, List.append_assoc]
    cases x with
    | item i => exact hgo ((length_encodeItem hx).trans i.size_bare) hx hmarks
    | helperAddress dst helper =>
      cases hx
      cases hmarks with
      | cons hmark hmarks =>
        cases hmark
        rw [List.foldl_cons]
        dsimp only [Relocation.offset]
        rw [patch_movWide]
        exact hgo rfl rfl hmarks
    | stringAddress dst text =>
      cases hx
      cases hmarks with
      | cons hmark hmarks =>
        cases hmark with
        | string htext =>
          rw [List.foldl_cons]
          dsimp only [Relocation.offset]
          rw [patch_movWide]
          refine hgo rfl ?_ hmarks
          simp only [Relocation.address, List.getD_eq_getElem?_getD, htext, Option.getD_some]
          rfl

/-- Loaded code is that of the program with addresses in it. -/
theorem encodeAll_loaded (m : Image) {f : IR.Function} {helpers : HelperTable} {n : NativeFunction}
    (h : generate f helpers = .ok n) :
  ∃ fragments labels, functionCode f = .ok fragments ∧
    (∀ l d, labels.at? l = some d ↔ BoundAt (link helpers fragments).items l d) ∧
    n.frameSize = Frame.size f.tempCount ∧
    encodeAll labels 0 (fragments.map (Fragment.placed m)) = .ok (n.loaded m)
  := by
  obtain ⟨fragments, hfragments, hrelocations, hstrings, hframe, hcode⟩ := generate_eq_ok h
  refine ⟨fragments, labelOffsets (locate 0 (link helpers fragments).items), hfragments,
    fun l d => at?_labelOffsets_iff, hframe, ?_⟩
  have hmarks : List.Forall₂ (Marks n.strings) (sites 0 fragments) n.relocations := by
    rw [hrelocations, hstrings]
    exact marks_link fragments
  rw [← encodeAll_bare, bare_link] at hcode
  obtain ⟨loaded, hloaded, hpatched⟩ := encodeAll_placed m [] hcode hmarks
  rw [List.nil_append, List.nil_append] at hpatched
  unfold NativeFunction.loaded
  rw [hpatched]
  exact hloaded

/-! ### Steps -/

/-- A state in which code is executed: the offset of the next instruction, and the processor. -/
structure State where
  offset : Nat
  processor : Processor

/-- An instruction stands at an offset of code. -/
def Fetches (code : List UInt8) (offset : Nat) (inst : Instruction) : Prop :=
  ∃ rest, decode? (code.drop offset) = some (inst, rest)

/-- How far an instruction goes beyond its end if it is a jump, given the flags that it looks at. -/
def Instruction.distance? (p : Processor) : Instruction → Option Int
  | jmp disp => some disp.toInt
  | jmpShort disp => some disp.toInt
  | je disp => p.flags.map fun flags => if Condition.equal.holds flags then disp.toInt else 0
  | _ => none

/-- What a helper that returns leaves as it was: what any called function does, and the saved base of
the frame above. -/
structure Resumed (q q' : Processor) : Prop extends Returned q q' where
  link : q'.load (q.registers rbp) = q.load (q.registers rbp)

/-- One step of the execution of code. -/
inductive Step (code : List UInt8) : State → State → Prop where
  | next {offset : Nat} {p q : Processor} {inst : Instruction} (hfetch : Fetches code offset inst)
    (hexecute : p.execute inst = some q) : Step code ⟨offset, p⟩ ⟨offset + inst.size, q⟩
  | jump {offset target : Nat} {p : Processor} {inst : Instruction} {distance : Int}
    (hfetch : Fetches code offset inst) (hdistance : inst.distance? p = some distance)
    (htarget : (target : Int) = (offset + inst.size : Nat) + distance) :
    Step code ⟨offset, p⟩ ⟨target, p⟩
  /-- A helper does its work and returns. -/
  | call {offset : Nat} {p q : Processor} {target : Register} (hfetch : Fetches code offset (.call target))
    (hresumed : Resumed p q) : Step code ⟨offset, p⟩ ⟨offset + (Instruction.call target).size, q⟩

/-- A state is reached from another one. -/
def Reaches (code : List UInt8) : State → State → Prop := Relation.ReflTransGen (Step code)

/-- One instruction only is fetched at an offset. -/
theorem Fetches.unique {code : List UInt8} {offset : Nat} {i j : Instruction} (hi : Fetches code offset i)
    (hj : Fetches code offset j) :
  i = j
  := by
  obtain ⟨rest, hi⟩ := hi
  obtain ⟨rest', hj⟩ := hj
  rw [hi] at hj
  exact (Prod.mk.inj (Option.some.inj hj)).1

/-! ### Instructions of loaded code -/

section

variable {m : Image} {labels : Table Label Nat} {code : List UInt8} {before after : List Fragment}

/-- The instruction of an item stands after the code before it, inside the code. -/
theorem fetches_of_encodeItem {x : Fragment} {inst : Instruction}
    (hcode : encodeAll labels 0 ((before ++ x :: after).map (Fragment.placed m)) = .ok code)
    (hitem : encodeItem labels (codeSize before) (x.placed m) = .ok inst.encode) :
  Fetches code (codeSize before) inst ∧ codeSize before + inst.size ≤ code.length
  := by
  rw [List.map_append, List.map_cons] at hcode
  obtain ⟨front, bytes, back, rfl, hfront, hbytes⟩ := encodeAll_split hcode
  rw [programSize_map_placed] at hfront hbytes
  rw [Nat.zero_add, hitem] at hbytes
  cases hbytes
  refine ⟨⟨back, ?_⟩, ?_⟩
  · rw [← hfront, List.drop_left]
    exact Instruction.decode?_encode inst back
  · simp only [List.length_append, hfront, Instruction.size]
    omega

/-- A label is bound where it stands in the code. -/
theorem exists_label {helpers : HelperTable} {fragments : List Fragment} {l : Label} {d : Nat}
    (h : BoundAt (link helpers fragments).items l d) :
  ∃ before after, fragments = before ++ .item (.label l) :: after ∧ codeSize before = d
  := by
  obtain ⟨front, back, hitems, -, rfl⟩ := h
  have hbare := bare_link helpers fragments
  rw [hitems, List.map_append, List.map_cons] at hbare
  obtain ⟨before, rest, rfl, hbefore, hrest⟩ := List.map_eq_append_iff.mp hbare.symm
  obtain ⟨x, after, rfl, hx, -⟩ := List.map_eq_cons_iff.mp hrest
  have hlabel : x = .item (.label l) := by
    cases x with
    | item i =>
      cases i with
      | label l' =>
        cases hx
        rfl
      | _ => cases hx
    | _ => cases hx
  rw [hlabel]
  refine ⟨before, after, rfl, ?_⟩
  rw [← programSize_map_bare helpers, hbefore, programSize_bare]

/-- A jump to `l` in loaded code is fetched with a distance that its form holds, and this distance
leads from its end to the label `l`. -/
theorem fetches_jump {helpers : HelperTable} {fragments : List Fragment} {form : JumpForm} {l : Label}
    (hlabels : ∀ l d, labels.at? l = some d ↔ BoundAt (link helpers fragments).items l d)
    (hcode : encodeAll labels 0 (fragments.map (Fragment.placed m)) = .ok code)
    (hsplit : fragments = before ++ .item (.jump form l) :: after) :
  ∃ distance before' after', form.Holds distance ∧
    Fetches code (codeSize before) (form.instruction distance) ∧
    codeSize before + (form.instruction distance).size ≤ code.length ∧
    fragments = before' ++ .item (.label l) :: after' ∧
    (codeSize before' : Int) = (codeSize before + (form.instruction distance).size : Nat) + distance
  := by
  have hitem : ∃ bytes, encodeItem labels (codeSize before) (.jump form l) = .ok bytes := by
    have hcode' := hcode
    rw [hsplit, List.map_append, List.map_cons] at hcode'
    obtain ⟨-, bytes, -, -, -, hbytes⟩ := encodeAll_split hcode'
    rw [programSize_map_placed, Nat.zero_add] at hbytes
    exact ⟨bytes, hbytes⟩
  obtain ⟨bytes, hbytes⟩ := hitem
  have hresolve := hbytes
  rw [encodeItem_jump] at hresolve
  obtain ⟨distance, hdistance, rfl⟩ := IR.Operation.map_eq_ok hresolve
  unfold Jump.resolve at hdistance
  cases hat : labels.at? l with
  | none =>
    rw [hat] at hdistance
    cases hdistance
  | some d =>
    rw [hat] at hdistance
    dsimp only at hdistance
    split at hdistance
    case isFalse => cases hdistance
    case isTrue hfits =>
      cases hdistance
      obtain ⟨before', after', hlabel, rfl⟩ := exists_label ((hlabels l d).mp hat)
      rw [hsplit] at hcode
      obtain ⟨hfetch, hinside⟩ := fetches_of_encodeItem hcode hbytes
      refine ⟨_, before', after', (form.fits_iff _).mp hfits, hfetch, hinside, hlabel, ?_⟩
      have hsize : ∀ d, (form.instruction d).size = (Item.jump form l).size :=
        fun d => (form.size_instruction d).trans (form.size_instruction 0).symm
      rw [hsize]
      omega

/-- A jump goes on to its label, or to the next instruction. -/
theorem exists_distance? {form : JumpForm} {d : Int} (h : form.Holds d) (p : Processor)
    (hflags : form = .equal → p.flags.isSome = true) :
  ∃ distance, (form.instruction d).distance? p = some distance ∧
    (distance = d ∨ form = .equal ∧ distance = 0)
  := by
  cases form with
  | near => exact ⟨_, rfl, .inl (Int32.toInt_ofInt_of_le h.1 (Int.lt_add_one_of_le h.2))⟩
  | short => exact ⟨_, rfl, .inl (Int8.toInt_ofInt_of_le h.1 (Int.lt_add_one_of_le h.2))⟩
  | equal =>
    obtain ⟨flags, hsome⟩ := Option.isSome_iff_exists.mp (hflags rfl)
    refine ⟨if Condition.equal.holds flags then (Int32.ofInt d).toInt else 0, ?_, ?_⟩
    · simp only [JumpForm.instruction, Instruction.distance?, hsome, Option.map_some]
    · split
      · exact .inl (Int32.toInt_ofInt_of_le h.1 (Int.lt_add_one_of_le h.2))
      · exact .inr ⟨rfl, rfl⟩

end

end StackCompiler.Machine
