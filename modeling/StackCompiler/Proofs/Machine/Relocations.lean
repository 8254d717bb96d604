import Mathlib.Data.List.Forall2
import StackCompiler.Proofs.Machine.References
import StackCompiler.Proofs.Machine.Resolution

/-!
# Relocations

`sites` are the loads of addresses in a program, with their offsets.  The relocations of machine code
are those of its sites: each one tells the field of a load that stands there, apart from all other
fields, and what to put into it.  The strings of machine code are those that its instructions load,
each one once, in the order of the first loads.
-/

namespace StackCompiler.Machine

open Register (rax)

/-- Where the field of a relocation starts. -/
def Relocation.offset : Relocation → Nat
  | helper offset _ | string offset _ => offset

/-! ### Sites -/

/-- The number of bytes of a fragment. -/
def Fragment.size : Fragment → Nat
  | .item i => i.size
  | .helperAddress _ _ | .stringAddress _ _ => 10

/-- The number of bytes of code. -/
def codeSize (fragments : List Fragment) : Nat := fragments.foldr (fun x n => x.size + n) 0

/-- A load of an address: where it starts, its register, and what it refers to. -/
structure Site where
  offset : Nat
  dst : Register
  reference : Reference
  deriving DecidableEq, Repr

/-- The site that a fragment at an offset is. -/
def Fragment.site? (offset : Nat) : Fragment → Option Site
  | .item _ => none
  | .helperAddress dst helper => some ⟨offset, dst, .helper helper⟩
  | .stringAddress dst text => some ⟨offset, dst, .string text⟩

/-- The sites in code that starts at an offset. -/
def sites : Nat → List Fragment → List Site
  | _, [] => []
  | offset, x :: xs => (x.site? offset).toList ++ sites (offset + x.size) xs

theorem codeSize_cons (x : Fragment) (xs : List Fragment) :
  codeSize (x :: xs) = x.size + codeSize xs
  := rfl

theorem codeSize_append (xs ys : List Fragment) :
  codeSize (xs ++ ys) = codeSize xs + codeSize ys
  := by
  induction xs with
  | nil => exact (Nat.zero_add _).symm
  | cons x xs ih => rw [List.cons_append, codeSize_cons, codeSize_cons, ih, Nat.add_assoc]

theorem Fragment.size_bare (helpers : HelperTable) (x : Fragment) :
  (x.bare helpers).size = x.size
  := by
  cases x with
  | item i => exact i.size_bare
  | _ => rfl

theorem programSize_map_bare (helpers : HelperTable) (xs : List Fragment) :
  programSize (xs.map (Fragment.bare helpers)) = codeSize xs
  := by
  induction xs with
  | nil => rfl
  | cons x xs ih => rw [List.map_cons, programSize_cons, ih, x.size_bare, codeSize_cons]

theorem programSize_link (helpers : HelperTable) (xs : List Fragment) :
  programSize (link helpers xs).items = codeSize xs
  := by
  rw [← programSize_bare, bare_link, programSize_map_bare]

theorem sites_append (n : Nat) (xs ys : List Fragment) :
  sites n (xs ++ ys) = sites n xs ++ sites (n + codeSize xs) ys
  := by
  induction xs generalizing n with
  | nil => rfl
  | cons x xs ih => rw [List.cons_append, sites, sites, ih, codeSize_cons, Nat.add_assoc, List.append_assoc]

/-- The sites of code refer to what its fragments refer to, in order. -/
theorem map_reference_sites (n : Nat) (xs : List Fragment) :
  (sites n xs).map Site.reference = xs.filterMap Fragment.reference?
  := by
  induction xs generalizing n with
  | nil => rfl
  | cons x xs ih =>
    rw [sites, List.map_append, ih]
    cases x <;> rfl

/-- A site is a fragment of the code, at the offset that the fragments before it give. -/
theorem mem_sites {n : Nat} {xs : List Fragment} {site : Site} (h : site ∈ sites n xs) :
  ∃ before x after, xs = before ++ x :: after ∧ x.site? (n + codeSize before) = some site
  := by
  induction xs generalizing n with
  | nil => cases h
  | cons x xs ih =>
    rcases List.mem_append.mp h with h | h
    · exact ⟨[], x, xs, rfl, Option.mem_toList.mp h⟩
    · obtain ⟨before, y, after, rfl, hy⟩ := ih h
      refine ⟨x :: before, y, after, rfl, ?_⟩
      rwa [codeSize_cons, ← Nat.add_assoc]

/-- Sites do not overlap. -/
theorem pairwise_sites (n : Nat) (xs : List Fragment) :
  (sites n xs).Pairwise (fun s s' => s.offset + 10 ≤ s'.offset) ∧ ∀ s ∈ sites n xs, n ≤ s.offset
  := by
  induction xs generalizing n with
  | nil => exact ⟨.nil, by rintro _ ⟨⟩⟩
  | cons x xs ih =>
    obtain ⟨hpairwise, hle⟩ := ih (n + x.size)
    cases x with
    | item i => exact ⟨hpairwise, fun s hs => Nat.le_of_add_right_le (hle s hs)⟩
    | helperAddress dst helper | stringAddress dst text =>
      refine ⟨List.pairwise_cons.mpr ⟨hle, hpairwise⟩, ?_⟩
      rintro s (_ | ⟨_, hs⟩)
      · exact Nat.le_refl n
      · exact Nat.le_of_add_right_le (hle s hs)

/-! ### Linking -/

/-- A relocation tells what a site refers to. -/
inductive Marks (strings : List String) : Site → Relocation → Prop where
  | helper {offset : Nat} {dst : Register} {helper : Helper} :
    Marks strings ⟨offset, dst, .helper helper⟩ (.helper (offset + 2) helper)
  | string {offset : Nat} {dst : Register} {text : String} {index : Nat}
    (h : strings[index]? = some text) :
    Marks strings ⟨offset, dst, .string text⟩ (.string (offset + 2) index)

theorem Marks.offset_eq {strings : List String} {site : Site} {r : Relocation} (h : Marks strings site r) :
  r.offset = site.offset + 2
  := by
  cases h <;> rfl

/-- The fields of relocations start two bytes into the loads at their sites, in order. -/
theorem map_offset_of_marks {strings : List String} {ss : List Site} {rs : List Relocation}
    (h : List.Forall₂ (Marks strings) ss rs) :
  rs.map Relocation.offset = ss.map (·.offset + 2)
  := by
  induction h with
  | nil => rfl
  | cons hmark _ ih => rw [List.map_cons, List.map_cons, hmark.offset_eq, ih]

/-- Strings keep their numbers when others come after them. -/
theorem Marks.append {strings : List String} {site : Site} {r : Relocation} (h : Marks strings site r)
    (more : List String) :
  Marks (strings ++ more) site r
  := by
  cases h with
  | helper => exact .helper
  | string h =>
    have hlt := (List.getElem?_eq_some_iff.mp h).1
    exact .string ((List.getElem?_append_left hlt).trans h)

theorem eraseDups_append_singleton {α : Type} [DecidableEq α] (xs : List α) (x : α) :
  (xs ++ [x]).eraseDups = xs.eraseDups ++ if x ∈ xs then [] else [x]
  := by
  rw [List.eraseDups_append]
  by_cases hx : x ∈ xs
  · simp [List.removeAll, hx]
  · simp [List.removeAll, hx, List.eraseDups_cons]

/-- No member is left twice when repetitions are erased. -/
theorem nodup_eraseDups {α : Type} [DecidableEq α] (xs : List α) :
  xs.eraseDups.Nodup
  := by
  induction xs using List.reverseRecOn with
  | nil => exact List.nodup_nil
  | append_singleton xs x ih =>
    rw [eraseDups_append_singleton]
    by_cases hx : x ∈ xs
    · rwa [if_pos hx, List.append_nil]
    · rw [if_neg hx]
      refine List.nodup_append.mpr ⟨ih, List.pairwise_singleton _ x, ?_⟩
      rintro a ha b hb rfl
      rw [List.mem_singleton.mp hb, List.mem_eraseDups] at ha
      exact hx ha

section

variable {helpers : HelperTable}

theorem link_append_singleton (xs : List Fragment) (x : Fragment) :
  link helpers (xs ++ [x]) = (link helpers xs).add helpers x
  := by
  unfold link
  rw [List.foldl_append]
  rfl

/-- Interning a text adds it at the end of the strings if it is new. -/
theorem intern_fst (strings : List String) (text : String) :
  (Linked.intern strings text).1 = strings ++ if text ∈ strings then [] else [text]
  := by
  unfold Linked.intern
  cases hindex : strings.idxOf? text with
  | none =>
    rw [if_neg (List.idxOf?_eq_none_iff.mp hindex)]
  | some index =>
    have hmem : text ∈ strings := by
      by_contra hnot
      rw [List.idxOf?_eq_none_iff.mpr hnot] at hindex
      cases hindex
    rw [if_pos hmem, List.append_nil]

/-- Interning a text gives its number. -/
theorem getElem?_intern (strings : List String) (text : String) :
  (Linked.intern strings text).1[(Linked.intern strings text).2]? = some text
  := by
  unfold Linked.intern
  cases hindex : strings.idxOf? text with
  | none => simp
  | some index =>
    obtain ⟨hlt, heq, -⟩ := List.idxOf?_eq_some_iff.mp hindex
    exact List.getElem?_eq_some_iff.mpr ⟨hlt, heq⟩

/-- The strings of a program are those that it refers to, in the order of the first references. -/
theorem strings_link (xs : List Fragment) :
  (link helpers xs).strings = ((xs.filterMap Fragment.reference?).filterMap Reference.text?).eraseDups
  := by
  induction xs using List.reverseRecOn with
  | nil => rfl
  | append_singleton xs x ih =>
    rw [link_append_singleton, List.filterMap_append, List.filterMap_append]
    cases x with
    | item i | helperAddress dst helper =>
      exact ih.trans (congrArg List.eraseDups (List.append_nil _).symm)
    | stringAddress dst text =>
      change (Linked.intern (link helpers xs).strings text).1
        = (_ ++ [text]).eraseDups
      rw [intern_fst, ih, eraseDups_append_singleton]
      simp only [List.mem_eraseDups]

/-- Linking gives one relocation for each site, in order, which tells what the site refers to. -/
theorem marks_link (xs : List Fragment) :
  List.Forall₂ (Marks (link helpers xs).strings) (sites 0 xs) (link helpers xs).relocations
  := by
  induction xs using List.reverseRecOn with
  | nil => exact .nil
  | append_singleton xs x ih =>
    rw [link_append_singleton, sites_append, Nat.zero_add]
    -- The field of a load that comes next is two bytes after its start.
    have hnext : ∀ dst imm, (link helpers xs).nextField (.movWide dst imm) = codeSize xs + 2 := by
      intro dst imm
      unfold Linked.nextField
      rw [programSize_link]
      rfl
    cases x with
    | item i =>
      rw [sites, sites, List.append_nil, Fragment.site?, Option.toList_none, List.append_nil]
      exact ih
    | helperAddress dst helper =>
      refine List.rel_append ih (.cons ?_ .nil)
      rw [hnext]
      exact .helper
    | stringAddress dst text =>
      have hstrings := intern_fst (link helpers xs).strings text
      refine List.rel_append (ih.imp fun site r hmarks => ?_) (.cons ?_ .nil)
      · change Marks (Linked.intern (link helpers xs).strings text).1 site r
        rw [hstrings]
        exact hmarks.append _
      · rw [hnext]
        exact .string (getElem?_intern _ text)

end

/-! ### Machine code -/

/-- If machine code is generated, it is the linked code of the function, encoded, with the
relocations, the strings and the frame of that code. -/
theorem generate_eq_ok {f : IR.Function} {helpers : HelperTable} {n : NativeFunction}
    (h : generate f helpers = .ok n) :
  ∃ fragments, functionCode f = .ok fragments ∧ n.relocations = (link helpers fragments).relocations ∧
    n.strings = (link helpers fragments).strings ∧ n.frameSize = Frame.size f.tempCount ∧
    encodeAll (labelOffsets (locate 0 (link helpers fragments).items)) 0 (link helpers fragments).items
      = .ok n.code
  := by
  obtain ⟨fragments, hfragments, h⟩ := bind_eq_ok h
  obtain ⟨a, ha, h⟩ := bind_eq_ok h
  cases h
  exact ⟨fragments, hfragments, rfl, rfl, rfl, encodeAll_of_assemble ha⟩

/-- Of two items of a program, one comes after the other. -/
theorem apart_of_split {before after before' after' : List Item} {x y : Item}
    (h : before ++ x :: after = before' ++ y :: after') :
  before = before' ∧ x = y ∨ programSize before + x.size ≤ programSize before' ∨
    programSize before' + y.size ≤ programSize before
  := by
  rcases List.append_eq_append_iff.mp h with ⟨middle, rfl, hmiddle⟩ | ⟨middle, rfl, hmiddle⟩
  · cases middle with
    | nil =>
      cases hmiddle
      exact .inl ⟨(List.append_nil _).symm, rfl⟩
    | cons z middle =>
      cases hmiddle
      rw [programSize_append, programSize_cons]
      exact .inr (.inl (by omega))
  · cases middle with
    | nil =>
      cases hmiddle
      exact .inl ⟨List.append_nil _, rfl⟩
    | cons z middle =>
      cases hmiddle
      rw [programSize_append, programSize_cons]
      exact .inr (.inr (by omega))

/-- In the code of a program there is a load of a 64-bit number at an offset, inside the code and apart
from the fields of all jumps. -/
structure LoadAt (items : List Item) (code : List UInt8) (offset : Nat) (dst : Register) (imm : UInt64) :
    Prop where
  located : ∃ symbol, (offset, .code (.movWide dst imm) symbol) ∈ locate 0 items
  inside : offset + 10 ≤ code.length
  bytes : (code.drop offset).take 10 = (Instruction.movWide dst imm).encode
  field : (code.drop (offset + 2)).take 8 = bytes64 imm
  apart : ∀ j ∈ jumps 0 items, j.stop ≤ offset + 2 ∨ offset + 10 ≤ j.start

/-- A relocation is what the loader needs for a site.  That of a helper is for a load into `rax` right
before a call, with the address from the table already in its field.  That of a string is for a load
of zero, and has the number of the string. -/
inductive Relocates (helpers : HelperTable) (items : List Item) (n : NativeFunction) :
    Site → Relocation → Prop where
  | helper {offset : Nat} {helper : Helper}
    (hload : LoadAt items n.code offset rax (helpers.address helper))
    (hcall : ∃ symbol, (offset + 10, .code (.call rax) symbol) ∈ locate 0 items)
    (hbytes : (n.code.drop (offset + 10)).take 2 = (Instruction.call rax).encode) :
    Relocates helpers items n ⟨offset, rax, .helper helper⟩ (.helper (offset + 2) helper)
  | string {offset : Nat} {dst : Register} {text : String} {index : Nat}
    (hload : LoadAt items n.code offset dst 0) (hindex : index < n.strings.length)
    (htext : n.strings[index]? = some text) :
    Relocates helpers items n ⟨offset, dst, .string text⟩ (.string (offset + 2) index)

section

variable {helpers : HelperTable} {fragments before after : List Fragment}

/-- The item of a fragment stands after those of the fragments before it. -/
theorem split_link (x : Fragment) :
  ∃ front item back, (link helpers (before ++ x :: after)).items = front ++ item :: back ∧
    item.bare = x.bare helpers ∧ programSize front = codeSize before ∧
    back.map Item.bare = after.map (Fragment.bare helpers)
  := by
  have hbare := bare_link helpers (before ++ x :: after)
  rw [List.map_append, List.map_cons] at hbare
  obtain ⟨front, rest, hitems, hfront, hrest⟩ := List.map_eq_append_iff.mp hbare
  obtain ⟨item, back, rfl, hitem, hback⟩ := List.map_eq_cons_iff.mp hrest
  refine ⟨front, item, back, hitems, hitem, ?_, hback⟩
  rw [← programSize_bare, hfront, programSize_map_bare]

theorem mem_locate_split (front back : List Item) (item : Item) :
  (programSize front, item) ∈ locate 0 (front ++ item :: back)
  := by
  rw [locate_append, locate, Nat.zero_add]
  exact List.mem_append_right _ List.mem_cons_self

/-- An item that is an instruction but for its symbol is this instruction, with some symbol. -/
theorem Item.eq_code_of_bare {item : Item} {inst : Instruction} (h : item.bare = .code inst) :
  ∃ symbol, item = .code inst symbol
  := by
  cases item with
  | code inst' symbol =>
    cases h
    exact ⟨symbol, rfl⟩
  | _ => cases h

/-- The bytes of an instruction stand where the instruction is. -/
theorem take_drop_code {items front back : List Item} {inst : Instruction} {symbol : Option String}
    {labels : Table IR.Label Nat} {code : List UInt8} (hcode : encodeAll labels 0 items = .ok code)
    (hitems : items = front ++ .code inst symbol :: back) :
  (code.drop (programSize front)).take inst.size = inst.encode ∧
    programSize front + inst.size ≤ code.length
  := by
  rw [hitems] at hcode
  obtain ⟨head, bytes, tail, rfl, hhead, hbytes⟩ := encodeAll_split hcode
  cases hbytes
  rw [← hhead]
  refine ⟨?_, ?_⟩
  · rw [List.drop_left]
    exact List.take_left
  · simp only [List.length_append, Instruction.size]
    omega

/-- An instruction in code stands at the size of what comes before it. -/
theorem codeAt_of_split {inst : Instruction} (hsplit : fragments = before ++ .code inst :: after)
    {labels : Table IR.Label Nat} {code : List UInt8}
    (hcode : encodeAll labels 0 (link helpers fragments).items = .ok code) :
  (∃ symbol, (codeSize before, .code inst symbol) ∈ locate 0 (link helpers fragments).items) ∧
    (code.drop (codeSize before)).take inst.size = inst.encode
  := by
  obtain ⟨front, item, back, hitems, hitem, hfront, -⟩ := split_link (.code inst)
  rw [← hsplit] at hitems
  obtain ⟨symbol, rfl⟩ := Item.eq_code_of_bare hitem
  rw [← hfront]
  refine ⟨⟨symbol, ?_⟩, (take_drop_code hcode hitems).1⟩
  rw [hitems]
  exact mem_locate_split front back _

/-- A fragment that becomes the load of a 64-bit number is such a load in the code, at the size of
the fragments before it. -/
theorem loadAt_of_split {x : Fragment} {dst : Register} {imm : UInt64}
    (hx : x.bare helpers = .code (.movWide dst imm)) {labels : Table IR.Label Nat} {code : List UInt8}
    (hcode : encodeAll labels 0 (link helpers (before ++ x :: after)).items = .ok code) :
  LoadAt (link helpers (before ++ x :: after)).items code (codeSize before) dst imm
  := by
  obtain ⟨front, item, back, hitems, hitem, hfront, -⟩ := split_link x
  obtain ⟨symbol, rfl⟩ := Item.eq_code_of_bare (hitem.trans hx)
  obtain ⟨hbytes, hinside⟩ := take_drop_code hcode hitems
  have hsize : (Instruction.movWide dst imm).size = 10 := rfl
  rw [hfront, hsize] at hbytes hinside
  refine ⟨⟨symbol, ?_⟩, hinside, hbytes, ?_, fun j hj => ?_⟩
  · rw [hitems, ← hfront]
    exact mem_locate_split front back _
  · have hfield := congrArg (List.drop 2) hbytes
    rw [List.drop_take, List.drop_drop] at hfield
    exact hfield
  · obtain ⟨front', back', hsplit, hstop⟩ := mem_jumps.mp hj
    have hjump : (Item.jump j.form j.target).size = j.form.opcode.length + j.form.fieldSize :=
      j.form.size_instruction 0
    have hload : (Item.code (.movWide dst imm) symbol).size = 10 := rfl
    rw [hitems] at hsplit
    rcases apart_of_split hsplit with ⟨-, heq⟩ | hle | hle
    · cases heq
    · right
      unfold Jump.start
      omega
    · left
      omega

/-- A relocation that tells what a site refers to is what the loader needs for it. -/
theorem relocates_of_marks {f : IR.Function} {n : NativeFunction} (hfragments : functionCode f = .ok fragments)
    (hstrings : n.strings = (link helpers fragments).strings) {labels : Table IR.Label Nat}
    (hcode : encodeAll labels 0 (link helpers fragments).items = .ok n.code) {site : Site} {r : Relocation}
    (hsite : site ∈ sites 0 fragments) (hmarks : Marks (link helpers fragments).strings site r) :
  Relocates helpers (link helpers fragments).items n site r
  := by
  obtain ⟨before, x, after, rfl, hx⟩ := mem_sites hsite
  rw [Nat.zero_add] at hx
  cases x with
  | item i => cases hx
  | helperAddress dst helper =>
    cases hx
    cases hmarks with
    | helper =>
      -- The call is the next fragment.
      obtain ⟨rfl, rest, rfl⟩ := (refers_functionCode hfragments).calls before after dst helper rfl
      have hsplit : before ++ .helperAddress rax helper :: .code (.call rax) :: rest
          = (before ++ [.helperAddress rax helper]) ++ .code (.call rax) :: rest := by
        rw [List.append_assoc]
        rfl
      obtain ⟨hcall, hbytes⟩ := codeAt_of_split hsplit hcode
      rw [codeSize_append] at hcall hbytes
      exact .helper (loadAt_of_split rfl hcode) hcall hbytes
  | stringAddress dst text =>
    cases hx
    cases hmarks with
    | string htext =>
      rw [← hstrings] at htext
      exact .string (loadAt_of_split rfl hcode) (List.getElem?_eq_some_iff.mp htext).1 htext

end

/-- The relocations of machine code are those of its sites, which are apart from each other and refer
to just what the instructions of the function do.  Its strings are those that the instructions load,
each one once, in the order of the first loads. -/
theorem generate_relocates {f : IR.Function} {helpers : HelperTable} {n : NativeFunction}
    (h : generate f helpers = .ok n) :
  ∃ fragments, functionCode f = .ok fragments ∧
    (sites 0 fragments).map Site.reference = f.live.flatMap (fun entry => references f entry.2) ∧
    List.Forall₂ (Relocates helpers (link helpers fragments).items n) (sites 0 fragments) n.relocations ∧
    n.relocations.Pairwise (fun r r' => r.offset + 10 ≤ r'.offset) ∧
    n.strings = ((f.live.flatMap fun entry => references f entry.2).filterMap Reference.text?).eraseDups ∧
    n.strings.Nodup
  := by
  obtain ⟨fragments, hfragments, hrelocations, hstrings, -, hcode⟩ := generate_eq_ok h
  have hrefs := (refers_functionCode hfragments).references_eq
  have hmarks : List.Forall₂ (Marks (link helpers fragments).strings) (sites 0 fragments) n.relocations := by
    rw [hrelocations]
    exact marks_link fragments
  refine ⟨fragments, hfragments, ?_, ?_, ?_, ?_, ?_⟩
  · rw [map_reference_sites, hrefs]
  · refine ((List.forall₂_and_left _ _).mpr ⟨fun site hsite => hsite, hmarks⟩).imp ?_
    rintro site r ⟨hsite, hmark⟩
    exact relocates_of_marks hfragments hstrings hcode hsite hmark
  · have hoffsets : (n.relocations.map Relocation.offset).Pairwise (fun a b => a + 10 ≤ b) := by
      rw [map_offset_of_marks hmarks, List.pairwise_map]
      exact (pairwise_sites 0 fragments).1.imp (by omega)
    rwa [List.pairwise_map] at hoffsets
  · rw [hstrings, strings_link, hrefs]
  · rw [hstrings, strings_link]
    exact nodup_eraseDups _

/-- A function that loads two strings, one of them again, and an integer that takes a wide load. -/
def greeting : IR.Function where
  name := "greeting"
  operands := #[.ofKind (.const (.string "hello")), .ofKind (.const (.string "world")),
    .ofKind (.const (.integer 4294967296)), { IR.Operand.ofKind (.temp 0) with register := some .r12 },
    .ofKind (.temp 1)]
  code := #[.assign 3 1, .assign 4 2, .jump 0, .call 3 [0, 4, 1], .label 0, .condJump 3 0, .ret 0]

/-- The strings are numbered as they are loaded, the arguments of a call from the last to the first. -/
theorem generate_relocates_greeting :
  ∃ n fragments, generate greeting [(.callFunction, 0x7F0012345678)] = .ok n ∧
    n.strings = ["world", "hello"] ∧
    n.relocations = [.string 43 0, .string 85 0, .string 104 1, .helper 128 .callFunction, .string 163 1] ∧
    functionCode greeting = .ok fragments ∧
    List.Forall₂ (Relocates [(.callFunction, 0x7F0012345678)]
      (link [(.callFunction, 0x7F0012345678)] fragments).items n) (sites 0 fragments) n.relocations
  := by
  have hcheck : (generate greeting [(.callFunction, 0x7F0012345678)]).toOption.any (fun n =>
      n.strings == ["world", "hello"] &&
      n.relocations == [.string 43 0, .string 85 0, .string 104 1, .helper 128 .callFunction, .string 163 1])
      = true := by
    decide +kernel
  obtain ⟨n, hn, hcheck⟩ := (Option.any_eq_true _ _).mp hcheck
  have hgenerate := eq_ok_of_toOption hn
  simp only [Bool.and_eq_true, beq_iff_eq] at hcheck
  obtain ⟨fragments, hfragments, -, hrelocates, -, -, -⟩ := generate_relocates hgenerate
  exact ⟨n, fragments, hgenerate, hcheck.1, hcheck.2, hfragments, hrelocates⟩

end StackCompiler.Machine
