import Mathlib.Algebra.GroupWithZero.Nat
import Mathlib.Data.List.Basic
import StackCompiler.Proofs.Machine.Assembler
import StackCompiler.Proofs.Machine.Fragments
import StackCompiler.Proofs.Passes.ShortJumps

/-!
# Jumps reach their labels

Assembly fails only at a jump without a label, or with one that is too far away.  Jumps of 32
bits reach any label in code of less than two gigabytes, and a short jump next to its label
reaches it, as nothing that takes up bytes is in between.
-/

namespace StackCompiler.Machine

open IR (Inst Label)

/-! ### Assembly -/

/-- Items that have bytes, each at its offset, have bytes together. -/
theorem exists_encodeAll {labels : Table Label Nat} {n : Nat} {items : List Item}
    (h : ∀ entry ∈ locate n items, ∃ bytes, encodeItem labels entry.1 entry.2 = .ok bytes) :
  ∃ code, encodeAll labels n items = .ok code
  := by
  induction items generalizing n with
  | nil => exact ⟨[], rfl⟩
  | cons x xs ih =>
    obtain ⟨bytes, hbytes⟩ := h (n, x) List.mem_cons_self
    obtain ⟨rest, hrest⟩ := ih fun entry hentry => h entry (List.mem_cons_of_mem _ hentry)
    refine ⟨bytes ++ rest, ?_⟩
    rw [encodeAll, hbytes, hrest]
    rfl

/-- A program is assembled if every jump reaches its label. -/
theorem exists_assemble {items : List Item}
    (h : ∀ offset form l, (offset, .jump form l) ∈ locate 0 items →
      ∃ d, (labelOffsets (locate 0 items)).at? l = some d ∧
        form.fits ((d : Int) - (offset + (Item.jump form l).size : Nat)) = true) :
  ∃ a, assemble items = .ok a
  := by
  have hencode : ∀ entry ∈ locate 0 items,
      ∃ bytes, encodeItem (labelOffsets (locate 0 items)) entry.1 entry.2 = .ok bytes := by
    rintro ⟨offset, item⟩ hmem
    cases item with
    | jump form l =>
      obtain ⟨d, hd, hfits⟩ := h offset form l hmem
      simp only [encodeItem, hd]
      rw [if_pos hfits]
      exact ⟨_, rfl⟩
    | _ => exact ⟨_, rfl⟩
  obtain ⟨code, hcode⟩ := exists_encodeAll hencode
  rw [assemble_eq, hcode]
  exact ⟨_, rfl⟩

/-! ### Linking -/

/-- An item without the name of what it refers to. -/
def Item.bare : Item → Item
  | code inst _ => code inst
  | item => item

/-- The item that a fragment becomes, without the name of what it refers to. -/
def Fragment.bare (helpers : HelperTable) : Fragment → Item
  | .item i => i.bare
  | .helperAddress dst helper => .code (.movWide dst (helpers.address helper))
  | .stringAddress dst _ => .code (.movWide dst 0)

theorem Item.size_bare (item : Item) :
  item.bare.size = item.size
  := by
  cases item <;> rfl

theorem programSize_bare (items : List Item) :
  programSize (items.map Item.bare) = programSize items
  := by
  induction items with
  | nil => rfl
  | cons item items ih => rw [List.map_cons, programSize_cons, programSize_cons, item.size_bare, ih]

/-- The items of linked code are those that the fragments become, but for names. -/
theorem bare_link (helpers : HelperTable) (fragments : List Fragment) :
  (link helpers fragments).items.map Item.bare = fragments.map (Fragment.bare helpers)
  := by
  have hfold : ∀ (fragments : List Fragment) (l : Linked),
      (fragments.foldl (Linked.add helpers) l).items.map Item.bare
        = l.items.map Item.bare ++ fragments.map (Fragment.bare helpers) := by
    intro fragments
    induction fragments with
    | nil => simp
    | cons fragment fragments ih =>
      intro l
      rw [List.foldl_cons, ih]
      cases fragment <;> simp [Linked.add, Fragment.bare, Item.bare]
  exact hfold fragments {}

theorem locate_bare (n : Nat) (items : List Item) :
  locate n (items.map Item.bare) = (locate n items).map fun entry => (entry.1, entry.2.bare)
  := by
  induction items generalizing n with
  | nil => rfl
  | cons item items ih => rw [List.map_cons, locate, ih, item.size_bare, locate, List.map_cons]

/-- The offsets of labels do not depend on names. -/
theorem labelOffsets_bare (located : List (Nat × Item)) :
  labelOffsets (located.map fun entry => (entry.1, entry.2.bare)) = labelOffsets located
  := by
  rw [labelOffsets_eq, labelOffsets_eq, List.foldl_map]
  congr
  funext labels entry
  obtain ⟨offset, item⟩ := entry
  cases item <;> rfl

/-- A linked program is assembled if every jump reaches its label, whatever names are given. -/
theorem exists_assemble_link {helpers : HelperTable} {fragments : List Fragment}
    (h : ∀ offset form l, (offset, .jump form l) ∈ locate 0 (fragments.map (Fragment.bare helpers)) →
      ∃ d, (labelOffsets (locate 0 (fragments.map (Fragment.bare helpers)))).at? l = some d ∧
        form.fits ((d : Int) - (offset + (Item.jump form l).size : Nat)) = true) :
  ∃ a, assemble (link helpers fragments).items = .ok a
  := by
  rw [← bare_link, locate_bare, labelOffsets_bare] at h
  apply exists_assemble
  intro offset form l hmem
  exact h offset form l (List.mem_map_of_mem hmem)

/-! ### The code of a function -/

section

variable {f : IR.Function} {helpers : HelperTable} {before after : List (Nat × Inst)} {t : Nat}

/-- The items of an instruction. -/
def itemsOf (f : IR.Function) (helpers : HelperTable) (entry : Nat × Inst) : List Item :=
  (block f entry).map (Fragment.bare helpers)

/-- A fragment that neither jumps nor is jumped to becomes an instruction. -/
theorem eq_code_of_isCode (helpers : HelperTable) {fragment : Fragment} (h : fragment.isCode = true) :
  ∃ inst, fragment.bare helpers = .code inst
  := by
  cases fragment with
  | item i =>
    cases i with
    | code inst symbol => exact ⟨inst, rfl⟩
    | _ => cases h
  | _ => exact ⟨_, rfl⟩

/-- Code that neither jumps nor is jumped to. -/
theorem not_mem_bare {fragments : List Fragment} (h : fragments.all Fragment.isCode = true) {item : Item}
    (hitem : ∀ inst symbol, item ≠ .code inst symbol) :
  item ∉ fragments.map (Fragment.bare helpers)
  := by
  intro hmem
  obtain ⟨fragment, hfragment, rfl⟩ := List.mem_map.mp hmem
  obtain ⟨inst, hinst⟩ := eq_code_of_isCode helpers (List.all_eq_true.mp h fragment hfragment)
  exact hitem inst none hinst

/-- A label or a jump among the items of an instruction is one of its code. -/
theorem mem_codeOf_of_mem_itemsOf {entry : Nat × Inst} {item : Item} (h : item ∈ itemsOf f helpers entry)
    (hcode : ∀ inst symbol, item ≠ .code inst symbol) (hcomment : ∀ text, item ≠ .comment text) :
  .item item ∈ codeOf f entry
  := by
  obtain ⟨fragment, hfragment, rfl⟩ := List.mem_map.mp h
  rcases List.mem_cons.mp hfragment with rfl | hmem
  · exact absurd rfl (hcomment _)
  · cases fragment with
    | item i =>
      cases i with
      | code inst symbol => exact absurd rfl (hcode inst none)
      | _ => exact hmem
    | _ => exact absurd rfl (hcode _ none)

theorem itemsOf_label (pos : Nat) (l : Label) :
  itemsOf f helpers (pos, .label l) = [.comment (f.instText (.label l)), .label l]
  := rfl

theorem itemsOf_shortJump (pos : Nat) (l : Label) :
  itemsOf f helpers (pos, .shortJump l) = [.comment (f.instText (.shortJump l)), .jump .short l]
  := rfl

/-- Jumps of 32 bits reach what is less than two gigabytes away. -/
theorem fits_of_lt {form : JumpForm} (hform : form ≠ .short) {d offset size : Nat} (hd : d ≤ size)
    (hoffset : offset ≤ size) (hsize : size < 2 ^ 31) :
  form.fits ((d : Int) - (offset : Nat)) = true
  := by
  cases form with
  | short => exact absurd rfl hform
  | near | equal =>
    refine Bool.and_eq_true_iff.mpr ⟨decide_eq_true ?_, decide_eq_true ?_⟩
    · change -((1 <<< 31 : Nat) : Int) ≤ _
      omega
    · change _ < ((1 <<< 31 : Nat) : Int)
      omega

/-- The instruction adjacent after another one is the next one. -/
theorem exists_next {p : Nat} {i j : Inst} (hlive : f.live = before ++ (p, i) :: after)
    (hadj : f.Adjacent p t) (ht : f.fetch t = some j) :
  ∃ rest, after = (t, j) :: rest
  := by
  have hsorted := f.pairwise_live
  rw [hlive, List.pairwise_append] at hsorted
  obtain ⟨-, hafter, hcross⟩ := hsorted
  rw [List.pairwise_cons] at hafter
  have hmem : (t, j) ∈ after := by
    have hmem := IR.Function.mem_live.mpr ht
    rw [hlive] at hmem
    rcases List.mem_append.mp hmem with hmem | hmem
    · have := hcross _ hmem _ List.mem_cons_self
      have := hadj.1
      omega
    · rcases List.mem_cons.mp hmem with heq | hmem
      · cases heq
        exact absurd hadj.1 (Nat.lt_irrefl _)
      · exact hmem
  cases after with
  | nil => cases hmem
  | cons e rest =>
    refine ⟨rest, ?_⟩
    rcases List.mem_cons.mp hmem with heq | hrest
    · rw [heq]
    · -- Otherwise an instruction would stand in between.
      have hpe := hafter.1 e List.mem_cons_self
      have het := (List.pairwise_cons.mp hafter.2).1 _ hrest
      have he : f.fetch e.1 = some e.2 := by
        apply IR.Function.mem_live.mp
        rw [hlive]
        exact List.mem_append_right _ (List.mem_cons_of_mem _ List.mem_cons_self)
      rw [hadj.2 e.1 hpe het] at he
      cases he

/-- The instruction adjacent before another one is the one before it. -/
theorem exists_previous {p : Nat} {i j : Inst} (hlive : f.live = before ++ (p, i) :: after)
    (hadj : f.Adjacent t p) (ht : f.fetch t = some j) :
  ∃ rest, before = rest ++ [(t, j)]
  := by
  have hmem := IR.Function.mem_live.mpr ht
  obtain ⟨rest, others, hsplit⟩ := List.append_of_mem hmem
  have hp : f.fetch p = some i := by
    apply IR.Function.mem_live.mp
    rw [hlive]
    exact List.mem_append_right _ List.mem_cons_self
  obtain ⟨others, rfl⟩ := exists_next hsplit hadj hp
  -- The other instruction stands in the list once.
  have hsorted := f.pairwise_live
  rw [hlive, List.pairwise_append, List.pairwise_cons] at hsorted
  have hbefore : (p, i) ∉ before := fun hmem =>
    Nat.lt_irrefl p (hsorted.2.2 _ hmem _ List.mem_cons_self)
  have hafter : (p, i) ∉ after := fun hmem => Nat.lt_irrefl p (hsorted.2.1.1 _ hmem)
  have heq : before ++ (p, i) :: after = (rest ++ [(t, j)]) ++ (p, i) :: others := by
    rw [← hlive, hsplit, List.append_assoc]
    rfl
  exact ⟨rest, ((List.append_cons_inj_of_notMem hbefore hafter).mp heq).1⟩

/-- A label stands at one place in the code. -/
theorem not_mem_itemsOf (wf : f.WellFormed) {l : Label}
    (hlive : f.live = before ++ (t, .label l) :: after) :
  .label l ∉ after.flatMap (itemsOf f helpers)
  := by
  intro hmem
  obtain ⟨entry, hentry, hlabel⟩ := List.mem_flatMap.mp hmem
  have he : f.fetch entry.1 = some entry.2 := by
    apply IR.Function.mem_live.mp
    rw [hlive]
    exact List.mem_append_right _ (List.mem_cons_of_mem _ hentry)
  have ht : f.fetch t = some (.label l) := by
    apply IR.Function.mem_live.mp
    rw [hlive]
    exact List.mem_append_right _ List.mem_cons_self
  have hcode : .item (.label l) ∈ codeOf f entry :=
    mem_codeOf_of_mem_itemsOf hlabel (by simp) (by simp)
  have hinst : entry.2 = .label l := (mirrors_codeOf entry (wf.fits _ _ he)).2.label l hcode
  rw [hinst] at he
  have heq : entry.1 = t := by
    have hat := (wf.labels l entry.1).mpr he
    rw [(wf.labels l t).mpr ht] at hat
    exact (Option.some.inj hat).symm
  have hsorted := f.pairwise_live
  rw [hlive, List.pairwise_append, List.pairwise_cons] at hsorted
  have hlt : t < entry.1 := hsorted.2.1.1 entry hentry
  omega

/-- A label stands after the code of the instructions before it. -/
theorem at?_code (wf : f.WellFormed) {opening closing : List Item} {l : Label}
    (hlive : f.live = before ++ (t, .label l) :: after) (hclosing : .label l ∉ closing) :
  (labelOffsets (locate 0 (opening ++ f.live.flatMap (itemsOf f helpers) ++ closing))).at? l
    = some (programSize opening + programSize (before.flatMap (itemsOf f helpers)))
  := by
  have hlist : opening ++ f.live.flatMap (itemsOf f helpers) ++ closing
      = (opening ++ before.flatMap (itemsOf f helpers) ++ [.comment (f.instText (.label l))])
        ++ .label l :: (after.flatMap (itemsOf f helpers) ++ closing) := by
    rw [hlive, List.flatMap_append, List.flatMap_cons, itemsOf_label]
    simp only [List.append_assoc, List.cons_append, List.nil_append]
  have hafter : .label l ∉ after.flatMap (itemsOf f helpers) ++ closing := by
    rw [List.mem_append, not_or]
    exact ⟨not_mem_itemsOf wf hlive, hclosing⟩
  rw [hlist, at?_labelOffsets 0 _ _ hafter, programSize_append, programSize_append, Nat.zero_add]
  rfl

theorem short_fits {d : Int} (hlo : -128 ≤ d) (hhi : d < 128) :
  JumpForm.short.fits d = true
  := Bool.and_eq_true_iff.mpr ⟨decide_eq_true hlo, decide_eq_true hhi⟩

/-- In close code every short jump reaches its label: the label has an offset `d`, and the distance
to it fits one byte. -/
theorem fits_shortJump (wf : f.WellFormed) (hc : f.Close) {opening closing : List Item} {l : Label}
    (hclosing : .label l ∉ closing) {p offset : Nat}
    (hlive : f.live = before ++ (p, .shortJump l) :: after)
    (hoffset : offset = programSize opening + programSize (before.flatMap (itemsOf f helpers))) :
  ∃ d, (labelOffsets (locate 0 (opening ++ f.live.flatMap (itemsOf f helpers) ++ closing))).at? l
      = some d ∧ JumpForm.short.fits ((d : Int) - (offset + (Item.jump .short l).size : Nat)) = true
  := by
  have hsize : (Item.jump .short l).size = 2 := rfl
  have hlabel : (Item.label l).size = 0 := rfl
  have hzero : ∀ text, (Item.comment text).size = 0 := fun _ => rfl
  have hnil : programSize [] = 0 := rfl
  have hp : f.fetch p = some (.shortJump l) := by
    apply IR.Function.mem_live.mp
    rw [hlive]
    exact List.mem_append_right _ List.mem_cons_self
  obtain ⟨t, ht, hadj | hadj⟩ := hc p l hp
  · -- The label comes next: the distance is zero.
    obtain ⟨rest, rfl⟩ := exists_next hlive hadj ht
    have hsplit : f.live = (before ++ [(p, .shortJump l)]) ++ (t, .label l) :: rest := by
      rw [hlive, List.append_assoc]
      rfl
    refine ⟨_, at?_code wf hsplit hclosing, ?_⟩
    rw [List.flatMap_append, List.flatMap_singleton, programSize_append, itemsOf_shortJump]
    simp only [programSize_cons, hsize, hzero, hnil, hoffset]
    exact short_fits (by omega) (by omega)
  · -- The label comes before: the jump goes back over itself.
    obtain ⟨rest, rfl⟩ := exists_previous hlive hadj ht
    have hsplit : f.live = rest ++ (t, .label l) :: ((p, .shortJump l) :: after) := by
      rw [hlive, List.append_assoc]
      rfl
    refine ⟨_, at?_code wf hsplit hclosing, ?_⟩
    rw [List.flatMap_append, List.flatMap_singleton, programSize_append, itemsOf_label] at hoffset
    simp only [programSize_cons, hlabel, hzero, hnil] at hoffset
    rw [hsize, hoffset]
    exact short_fits (by omega) (by omega)

/-- Wired code with short jumps next to their labels has machine code, if that is not too long. -/
theorem exists_generate (wf : f.WellFormed) (hw : f.Wired) (hc : f.Close)
    (hsize : ∀ fragments, functionCode f = .ok fragments →
      programSize (link helpers fragments).items < 2 ^ 31) :
  ∃ n, generate f helpers = .ok n
  := by
  have hfits : ∀ entry ∈ f.live, entry.2.Fits f :=
    fun entry hentry => wf.fits _ _ (IR.Function.mem_live.mp hentry)
  obtain ⟨opening, closing, hcode, hopening, hclosing⟩ := exists_functionCode hfits
  have hlt := hsize _ hcode
  have hlist : (opening ++ f.live.flatMap (block f) ++ closing).map (Fragment.bare helpers)
      = opening.map (Fragment.bare helpers) ++ f.live.flatMap (itemsOf f helpers)
        ++ closing.map (Fragment.bare helpers) := by
    rw [List.map_append, List.map_append, List.map_flatMap]
    rfl
  rw [← programSize_bare, bare_link, hlist] at hlt
  have hassemble : ∃ a, assemble (link helpers (opening ++ f.live.flatMap (block f) ++ closing)).items
      = .ok a := by
    apply exists_assemble_link
    rw [hlist]
    intro offset form l hmem
    have hnone : ∀ fragments : List Fragment, fragments.all Fragment.isCode = true →
        .jump form l ∉ fragments.map (Fragment.bare helpers) :=
      fun _ hall => not_mem_bare hall (by simp)
    have hend := (mem_locate hmem).2
    rw [locate_append, locate_append, List.mem_append, List.mem_append] at hmem
    rcases hmem with (hmem | hmem) | hmem
    · exact absurd (mem_locate hmem).1 (hnone _ hopening)
    · obtain ⟨before, ⟨p, inst⟩, after, hlive, hjump⟩ := mem_locate_flatMap hmem
      have hp : f.fetch p = some inst := by
        apply IR.Function.mem_live.mp
        rw [hlive]
        exact List.mem_append_right _ List.mem_cons_self
      have hmirrors : Mirrors inst (codeOf f (p, inst)) := (mirrors_codeOf (p, inst) (wf.fits p inst hp)).2
      obtain ⟨htarget, hshort⟩ := hmirrors.jump form l
        (mem_codeOf_of_mem_itemsOf (mem_locate hjump).1 (by simp) (by simp))
      by_cases hform : form = .short
      · subst hform
        cases hshort rfl
        refine fits_shortJump wf hc (not_mem_bare hclosing (by simp)) hlive ?_
        rw [itemsOf_shortJump] at hjump
        rcases List.mem_cons.mp hjump with heq | hjump
        · cases heq
        · cases List.mem_singleton.mp hjump
          simp only [Item.size]
          omega
      · obtain ⟨t, ht⟩ := hw.target p inst l hp htarget
        have hlabel : .label l ∈ f.live.flatMap (itemsOf f helpers) :=
          List.mem_flatMap.mpr ⟨_, IR.Function.mem_live.mpr ht, by rw [itemsOf_label]; simp⟩
        obtain ⟨d, hd, hle⟩ := exists_labelOffset
          (List.mem_append_left (closing.map (Fragment.bare helpers))
            (List.mem_append_right (opening.map (Fragment.bare helpers)) hlabel))
        exact ⟨d, hd, fits_of_lt hform hle (by omega) hlt⟩
    · exact absurd (mem_locate hmem).1 (hnone _ hclosing)
  obtain ⟨a, ha⟩ := hassemble
  unfold generate
  rw [hcode]
  simp only [bind, Except.bind, ha]
  exact ⟨_, rfl⟩

end

end StackCompiler.Machine
