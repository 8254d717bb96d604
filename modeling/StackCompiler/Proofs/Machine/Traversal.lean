import StackCompiler.Proofs.Machine.Frames

/-!
# Traversal of code

`Traverses` follows code from a state to its end, one fragment after the other.  On the way every
access relative to the base stays in the frame, every call finds the stack aligned, comments, labels
and jumps find nothing pushed, and a return finds what the caller had in registers.  Code `Leads` from
one condition to another if this is so from all states under the first one, and from every label in it
when nothing is pushed.  If code leads nowhere, then its execution, whichever jumps it takes, does not
run past its end.
-/

namespace StackCompiler.Machine

open IR (Label)
open Register (rax rsp rbp)

/-- The place, relative to the base of the frame, of the word that an instruction accesses. -/
def Instruction.slot? : Instruction → Option Int32
  | .load _ base disp | .store base disp _ => if base = rbp then some disp else none
  | _ => none

/-- The word at a place lies in the frame. -/
def Within (frame : Nat) (disp : Int32) : Prop := -(frame : Int) ≤ disp.toInt ∧ disp.toInt ≤ -8

/-- A call of a function with a frame, in a state in which the stack is aligned for calls. -/
structure Invocation (frame : Nat) where
  image : Image
  /-- The state in which the function is called. -/
  caller : Processor
  parameters : 24 ≤ frame
  carried : frame < 2 ^ 31
  even : (frame + Frame.savedBytes) % 16 = 0
  aligned : (caller.registers rsp).toNat % 16 = 8

namespace Invocation

variable {frame : Nat} (v : Invocation frame)

/-- A state of the invocation, when a number of words have been pushed. -/
abbrev Deep (depth : Nat) (p : Processor) : Prop := InBody frame v.caller depth p

/-- An instruction does nothing wrong, and leads to states under a condition. -/
inductive Proceeds (Q : Processor → Prop) (p : Processor) : Instruction → Prop where
  | next {inst : Instruction} {q : Processor}
    (haccess : ∀ disp, inst.slot? = some disp →
      p.registers rbp = v.caller.registers rsp - 8 ∧ Within frame disp)
    (hexecute : p.execute inst = some q) (hq : Q q) : Proceeds Q p inst
  /-- A division without a quotient ends in a fault. -/
  | fault {divisor : Register} (hexecute : p.execute (.idiv divisor) = none) : Proceeds Q p (.idiv divisor)
  | call {target : Register} (haligned : (p.registers rsp).toNat % 16 = 0)
    (hresumed : ∀ q, Resumed p q → Q q) : Proceeds Q p (.call target)
  | ret (hleft : Left v.caller p) : Proceeds Q p .ret

/-- A fragment does nothing wrong, and leads to states under a condition. -/
inductive Passes (Q : Processor → Prop) (p : Processor) : Fragment → Prop where
  | comment {text : String} (hlevel : v.Deep 0 p) (hq : Q p) : Passes Q p (.item (.comment text))
  | label {l : Label} (hlevel : v.Deep 0 p) (hq : Q p) : Passes Q p (.item (.label l))
  | jump {form : JumpForm} {l : Label} (hlevel : v.Deep 0 p)
    (hflags : form = .equal → p.flags.isSome = true) (hq : Q p) : Passes Q p (.item (.jump form l))
  | instruction {x : Fragment} {inst : Instruction} (hinst : x.instruction? v.image = some inst)
    (hproceeds : v.Proceeds Q p inst) : Passes Q p x

/-- Code does nothing wrong from a state on, and its end is reached under a condition. -/
def Traverses (Q : Processor → Prop) : List Fragment → Processor → Prop
  | [], p => Q p
  | x :: xs, p => v.Passes (Traverses Q xs) p x

variable {v} {P Q R : Processor → Prop} {p q : Processor} {code rest : List Fragment}

theorem Proceeds.mono {inst : Instruction} (h : v.Proceeds Q p inst) (hQ : ∀ q, Q q → R q) :
  v.Proceeds R p inst
  := by
  cases h with
  | next haccess hexecute hq => exact .next haccess hexecute (hQ _ hq)
  | fault hexecute => exact .fault hexecute
  | call haligned hresumed => exact .call haligned fun q hq => hQ q (hresumed q hq)
  | ret hleft => exact .ret hleft

theorem Passes.mono {x : Fragment} (h : v.Passes Q p x) (hQ : ∀ q, Q q → R q) :
  v.Passes R p x
  := by
  cases h with
  | comment hlevel hq => exact .comment hlevel (hQ p hq)
  | label hlevel hq => exact .label hlevel (hQ p hq)
  | jump hlevel hflags hq => exact .jump hlevel hflags (hQ p hq)
  | instruction hinst hproceeds => exact .instruction hinst (hproceeds.mono hQ)

theorem Traverses.append (h : v.Traverses Q code p) (hrest : ∀ q, Q q → v.Traverses R rest q) :
  v.Traverses R (code ++ rest) p
  := by
  induction code generalizing p with
  | nil => exact hrest p h
  | cons x xs ih => exact Passes.mono h fun q hq => ih hq

theorem Traverses.mono (h : v.Traverses Q code p) (hQ : ∀ q, Q q → R q) :
  v.Traverses R code p
  := by
  have happend : v.Traverses R (code ++ []) p := h.append hQ
  rwa [List.append_nil] at happend

/-- One instruction that goes on to the next one. -/
theorem Traverses.next {inst : Instruction} (hexecute : p.execute inst = some q)
    (haccess : ∀ disp, inst.slot? = some disp →
      p.registers rbp = v.caller.registers rsp - 8 ∧ Within frame disp)
    (hq : v.Traverses Q rest q) :
  v.Traverses Q (.code inst :: rest) p
  := .instruction rfl (.next haccess hexecute hq)

/-- Instructions that go through and access nothing relative to the base. -/
theorem Traverses.of_run {insts : List Instruction} (hslots : ∀ inst ∈ insts, inst.slot? = none)
    (hrun : Processor.run insts p = some q) (hq : Q q) :
  v.Traverses Q (codes insts) p
  := by
  induction insts generalizing p with
  | nil =>
    cases hrun
    exact hq
  | cons inst insts ih =>
    rw [Processor.run_cons] at hrun
    obtain ⟨s, hs, hrest⟩ := Option.bind_eq_some_iff.mp hrun
    refine Traverses.next hs (fun disp hdisp => ?_) (ih (fun i hi => hslots i (List.mem_cons_of_mem _ hi)) hrest)
    rw [hslots inst List.mem_cons_self] at hdisp
    cases hdisp

/-! ### Code that leads from one condition to another -/

variable (v) in
/-- Code does nothing wrong from states under a condition on, nor from its labels on when nothing is
pushed, and its end is reached under another condition. -/
structure Leads (P : Processor → Prop) (code : List Fragment) (Q : Processor → Prop) : Prop where
  traverses : ∀ p, P p → v.Traverses Q code p
  labels : ∀ before l after, code = before ++ .item (.label l) :: after →
    ∀ p, v.Deep 0 p → v.Traverses Q (.item (.label l) :: after) p

namespace Leads

theorem nil (h : ∀ p, P p → Q p) :
  v.Leads P [] Q
  := ⟨h, by simp⟩

/-- Code in two parts leads from where the first one starts to where the second one ends. -/
theorem append (h : v.Leads P code Q) (h' : v.Leads Q rest R) :
  v.Leads P (code ++ rest) R
  := by
  refine ⟨fun p hp => (h.traverses p hp).append h'.traverses, fun before l after heq p hp => ?_⟩
  rcases List.append_eq_append_iff.mp heq with ⟨middle, -, hrest⟩ | ⟨middle, hcode, hmiddle⟩
  · exact h'.labels middle l after hrest p hp
  · cases middle with
    | nil => exact h'.labels [] l after hmiddle.symm p hp
    | cons x middle =>
      cases hmiddle
      exact (h.labels before l middle hcode p hp).append h'.traverses

theorem mono {P' Q' : Processor → Prop} (h : v.Leads P code Q) (hP : ∀ p, P' p → P p) (hQ : ∀ p, Q p → Q' p) :
  v.Leads P' code Q'
  := ⟨fun p hp => (h.traverses p (hP p hp)).mono hQ,
    fun before l after heq p hp => (h.labels before l after heq p hp).mono hQ⟩

/-- Code without labels. -/
theorem of_forall (hcode : ∀ x ∈ code, x.isCode = true) (h : ∀ p, P p → v.Traverses Q code p) :
  v.Leads P code Q
  := by
  refine ⟨h, fun before l after heq => ?_⟩
  have hlabel := hcode (.item (.label l)) (by rw [heq]; simp)
  cases hlabel

/-- Plain instructions, which have no labels, lead from one condition to another if they do so
from their start. -/
theorem codes {insts : List Instruction} (h : ∀ p, P p → v.Traverses Q (codes insts) p) :
  v.Leads P (codes insts) Q
  := of_forall (List.all_eq_true.mp (isCode_codes insts)) h

/-- An instruction leads from one condition to another if it does nothing wrong under the first
and leads to the second. -/
theorem instruction {inst : Instruction} (h : ∀ p, P p → v.Proceeds Q p inst) :
  v.Leads P [.code inst] Q
  := of_forall (by simp [Fragment.code, Fragment.isCode]) fun p hp => .instruction rfl (h p hp)

/-- If the code of each member of a list leads from a condition back to it, so does the code of
all of them. -/
theorem flatMap {α : Type} {xs : List α} {g : α → List Fragment} (h : ∀ x ∈ xs, v.Leads P (g x) P) :
  v.Leads P (xs.flatMap g) P
  := by
  induction xs with
  | nil => exact nil fun _ hp => hp
  | cons x xs ih =>
    rw [List.flatMap_cons]
    exact (h x List.mem_cons_self).append (ih fun y hy => h y (List.mem_cons_of_mem _ hy))

/-- A comment where nothing is pushed leads to where nothing is pushed. -/
theorem comment (text : String) :
  v.Leads (v.Deep 0) [.item (.comment text)] (v.Deep 0)
  := by
  refine ⟨fun p hp => .comment hp hp, fun before l after heq => ?_⟩
  cases before with
  | nil => cases heq
  | cons x before => simp at heq

/-- A label where nothing is pushed leads to where nothing is pushed. -/
theorem label (l : Label) :
  v.Leads (v.Deep 0) [.item (.label l)] (v.Deep 0)
  := by
  refine ⟨fun p hp => .label hp hp, fun before l' after heq p hp => ?_⟩
  cases before with
  | nil =>
    cases heq
    exact .label hp hp
  | cons x before => simp at heq

/-- A jump that is not taken leads on, where nothing is pushed; a conditional one needs the flags
of a comparison. -/
theorem jump {form : JumpForm} (l : Label) :
  v.Leads (fun p => v.Deep 0 p ∧ (form = .equal → p.flags.isSome = true)) [.item (.jump form l)] (v.Deep 0)
  := by
  refine ⟨fun p hp => .jump hp.1 hp.2 hp.1, fun before l' after heq => ?_⟩
  cases before with
  | nil => cases heq
  | cons x before => simp at heq

end Leads

/-! ### Execution -/

/-- The item of a fragment that is an instruction. -/
theorem placed_of_instruction? {m : Image} {x : Fragment} {inst : Instruction}
    (h : x.instruction? m = some inst) :
  x.placed m = .code inst
  := by
  cases x with
  | item i =>
    cases i with
    | code inst symbol =>
      cases h
      rfl
    | _ => cases h
  | _ =>
    cases h
    rfl

theorem size_of_instruction? {m : Image} {x : Fragment} {inst : Instruction}
    (h : x.instruction? m = some inst) :
  x.size = inst.size
  := by
  rw [← x.size_placed m, placed_of_instruction? h]
  rfl

/-- Only comments and labels take no space, and they find nothing pushed. -/
theorem Passes.level {x : Fragment} (h : v.Passes Q p x) (hsize : x.size = 0) :
  v.Deep 0 p ∧ Q p
  := by
  cases h with
  | comment hlevel hq => exact ⟨hlevel, hq⟩
  | label hlevel hq => exact ⟨hlevel, hq⟩
  | jump hlevel _ hq => exact ⟨hlevel, hq⟩
  | instruction hinst _ =>
    rw [size_of_instruction? hinst] at hsize
    exact absurd hsize (Nat.ne_of_gt (Instruction.size_pos _))

/-- Comments and labels are skipped. -/
theorem Traverses.skip (h : v.Traverses (fun _ => False) code p) :
  ∃ skipped x after, code = skipped ++ x :: after ∧ codeSize skipped = 0 ∧ x.size ≠ 0 ∧
    v.Passes (v.Traverses (fun _ => False) after) p x
  := by
  induction code with
  | nil => exact h.elim
  | cons x xs ih =>
    by_cases hsize : x.size = 0
    · obtain ⟨skipped, y, after, rfl, hskipped, hy, hpasses⟩ := ih (Passes.level h hsize).2
      refine ⟨x :: skipped, y, after, rfl, ?_, hy, hpasses⟩
      rw [codeSize_cons, hsize, hskipped]
    · exact ⟨[], x, xs, rfl, rfl, hsize, h⟩

/-- The fragments of code without bytes have no bytes. -/
theorem size_eq_zero_of_codeSize {x : Fragment} (h : codeSize code = 0) (hx : x ∈ code) :
  x.size = 0
  := by
  induction code with
  | nil => cases hx
  | cons y code ih =>
    rw [codeSize_cons] at h
    rcases List.mem_cons.mp hx with rfl | hx
    · omega
    · exact ih (by omega) hx

variable (v) in
/-- Code has been loaded that leads nowhere. -/
structure Loaded (helpers : HelperTable) (labels : Table Label Nat) (fragments : List Fragment)
    (bytes : List UInt8) : Prop where
  labels_iff : ∀ l d, labels.at? l = some d ↔ BoundAt (link helpers fragments).items l d
  encoded : encodeAll labels 0 (fragments.map (Fragment.placed v.image)) = .ok bytes
  leads : v.Leads (· = v.caller) fragments fun _ => False

variable (v) in
/-- An execution has come to a state: what is left of the code does nothing wrong and does not come to
its end, and if a comment or a label stands right before it, nothing is pushed. -/
def Underway (fragments : List Fragment) (s : State) : Prop :=
  ∃ before after, fragments = before ++ after ∧ s.offset = codeSize before ∧
    v.Traverses (fun _ => False) after s.processor ∧
    ∀ x, before.getLast? = some x → x.size = 0 → v.Deep 0 s.processor

section

variable {helpers : HelperTable} {labels : Table Label Nat} {fragments : List Fragment} {bytes : List UInt8}
  {s s' : State}

/-- When a function is called, its execution is at the start of its code. -/
theorem Loaded.underway (h : v.Loaded helpers labels fragments bytes) :
  v.Underway fragments ⟨0, v.caller⟩
  := ⟨[], fragments, rfl, rfl, h.leads.traverses _ rfl, by simp⟩

/-- The fragment that is carried out next. -/
theorem Underway.cases (h : v.Underway fragments s) :
  ∃ before x after, fragments = before ++ x :: after ∧ s.offset = codeSize before ∧ x.size ≠ 0 ∧
    v.Passes (v.Traverses (fun _ => False) after) s.processor x
  := by
  obtain ⟨before, after, rfl, hoffset, htraverses, -⟩ := h
  obtain ⟨skipped, x, after, rfl, hskipped, hsize, hpasses⟩ := htraverses.skip
  refine ⟨before ++ skipped, x, after, by simp, ?_, hsize, hpasses⟩
  rw [hoffset, codeSize_append, hskipped, Nat.add_zero]

/-- An execution goes on after a fragment. -/
theorem underway_next {before after : List Fragment} {x : Fragment} (hsplit : fragments = before ++ x :: after)
    (hsize : x.size ≠ 0) (htraverses : v.Traverses (fun _ => False) after q) {offset : Nat}
    (hoffset : offset = codeSize before + x.size) :
  v.Underway fragments ⟨offset, q⟩
  := by
  refine ⟨before ++ [x], after, by simp [hsplit], ?_, htraverses, fun y hy hzero => ?_⟩
  · rw [hoffset, codeSize_append, codeSize_cons]
    rfl
  · rw [List.getLast?_concat] at hy
    cases hy
    exact absurd hzero hsize

/-- Underway in loaded code, a whole instruction is fetched: one after which the execution proceeds
to the next, or a jump whose target it can go on from. -/
theorem Underway.fetches (hloaded : v.Loaded helpers labels fragments bytes) (h : v.Underway fragments s) :
  ∃ inst, Fetches bytes s.offset inst ∧ s.offset + inst.size ≤ bytes.length ∧
    (v.Proceeds (fun q => v.Underway fragments ⟨s.offset + inst.size, q⟩) s.processor inst ∨
      ∃ (form : JumpForm) (d distance : Int) (target : Nat), inst = form.instruction d ∧
        inst.distance? s.processor = some distance ∧
        (target : Int) = (s.offset + inst.size : Nat) + distance ∧ v.Underway fragments ⟨target, s.processor⟩)
  := by
  obtain ⟨before, x, after, hsplit, hoffset, hsize, hpasses⟩ := h.cases
  have hencoded := hloaded.encoded
  cases hpasses with
  | comment _ _ => exact absurd rfl hsize
  | label _ _ => exact absurd rfl hsize
  | instruction hinst hproceeds =>
    rename_i inst
    rw [hsplit] at hencoded
    obtain ⟨hfetch, hinside⟩ := fetches_of_encodeItem hencoded
      (by rw [placed_of_instruction? hinst]; rfl)
    rw [hoffset]
    refine ⟨inst, hfetch, hinside, .inl (hproceeds.mono fun q hq => ?_)⟩
    exact underway_next hsplit hsize hq (by rw [size_of_instruction? hinst])
  | jump hlevel hflags hq =>
    rename_i form l
    obtain ⟨d, before', after', hholds, hfetch, hinside, hlabel, htarget⟩ :=
      fetches_jump hloaded.labels_iff hencoded hsplit
    obtain ⟨distance, hdistance, hgoes⟩ := exists_distance? hholds s.processor hflags
    rw [hoffset]
    refine ⟨_, hfetch, hinside, .inr ?_⟩
    rcases hgoes with rfl | ⟨-, rfl⟩
    · refine ⟨form, _, _, codeSize before', rfl, hdistance, htarget, ?_⟩
      exact ⟨before', _, hlabel, rfl, hloaded.leads.labels before' l after' hlabel _ hlevel,
        fun _ _ _ => hlevel⟩
    · refine ⟨form, d, _, _, rfl, hdistance, (Int.add_zero _).symm, ?_⟩
      apply underway_next hsplit hsize hq
      rw [form.size_instruction d, ← form.size_instruction 0]
      rfl

/-- A jump is neither carried out in place nor a call. -/
theorem execute_jump (form : JumpForm) (d : Int) (p : Processor) :
  p.execute (form.instruction d) = none ∧ ∀ target, form.instruction d ≠ .call target
  := by
  cases form <;> exact ⟨rfl, by rintro _ ⟨⟩⟩

theorem distance?_of_execute {inst : Instruction} (h : p.execute inst = some q) :
  inst.distance? p = none
  := by
  cases inst <;> first | rfl | cases h

/-- An execution that is underway in loaded code is underway after every step of the processor. -/
theorem Underway.step (hloaded : v.Loaded helpers labels fragments bytes) (h : v.Underway fragments s)
    (hstep : Step bytes s s') :
  v.Underway fragments s'
  := by
  obtain ⟨inst, hfetch, -, hcases⟩ := h.fetches hloaded
  cases hstep with
  | next hfetch' hexecute =>
    cases hfetch.unique hfetch'
    rcases hcases with hproceeds | ⟨form, d, -, -, rfl, -⟩
    · cases hproceeds with
      | next _ hexecute' hq =>
        rw [hexecute] at hexecute'
        cases hexecute'
        exact hq
      | fault hexecute' =>
        rw [hexecute] at hexecute'
        cases hexecute'
      | call _ _ => cases hexecute
      | ret _ => cases hexecute
    · rw [(execute_jump form d _).1] at hexecute
      cases hexecute
  | jump hfetch' hdistance htarget =>
    cases hfetch.unique hfetch'
    rcases hcases with hproceeds | ⟨form, d, distance, target, rfl, hdistance', htarget', hunderway⟩
    · cases hproceeds with
      | next _ hexecute _ =>
        rw [distance?_of_execute hexecute] at hdistance
        cases hdistance
      | fault _ => cases hdistance
      | call _ _ => cases hdistance
      | ret _ => cases hdistance
    · rw [hdistance] at hdistance'
      cases hdistance'
      rw [← htarget] at htarget'
      rwa [← Int.ofNat_inj.mp htarget']
  | call hfetch' hresumed =>
    cases hfetch.unique hfetch'
    rcases hcases with hproceeds | ⟨form, d, -, -, hcall, -⟩
    · cases hproceeds with
      | next _ hexecute _ => cases hexecute
      | call _ hcalled => exact hcalled _ hresumed
    · exact absurd hcall.symm ((execute_jump form d v.caller).2 _)

/-- A run keeps what its steps keep. -/
theorem Loaded.underway_of_reaches (hloaded : v.Loaded helpers labels fragments bytes)
    (h : Reaches bytes ⟨0, v.caller⟩ s) :
  v.Underway fragments s
  := by
  induction h with
  | refl => exact hloaded.underway
  | tail _ hstep ih => exact ih.step hloaded hstep

/-! ### What is true on the way -/

/-- On the way every call finds the stack aligned. -/
theorem Underway.aligned (hloaded : v.Loaded helpers labels fragments bytes) (h : v.Underway fragments s)
    {target : Register} (hcall : Fetches bytes s.offset (.call target)) :
  (s.processor.registers rsp).toNat % 16 = 0
  := by
  obtain ⟨inst, hfetch, -, hcases⟩ := h.fetches hloaded
  cases hfetch.unique hcall
  rcases hcases with hproceeds | ⟨form, d, -, -, hjump, -⟩
  · cases hproceeds with
    | next _ hexecute _ => cases hexecute
    | call haligned _ => exact haligned
  · exact absurd hjump.symm ((execute_jump form d v.caller).2 _)

/-- On the way every access relative to the base stays in the frame of the invocation. -/
theorem Underway.access (hloaded : v.Loaded helpers labels fragments bytes) (h : v.Underway fragments s)
    {inst : Instruction} {disp : Int32} (hinst : Fetches bytes s.offset inst)
    (hslot : inst.slot? = some disp) :
  s.processor.registers rbp = v.caller.registers rsp - 8 ∧ Within frame disp
  := by
  obtain ⟨inst', hfetch, -, hcases⟩ := h.fetches hloaded
  cases hfetch.unique hinst
  rcases hcases with hproceeds | ⟨form, d, -, -, rfl, -⟩
  · cases hproceeds with
    | next haccess _ _ => exact haccess disp hslot
    | fault _ => cases hslot
    | call _ _ => cases hslot
    | ret _ => cases hslot
  · cases form <;> cases hslot

/-- An execution goes on, returns, or divides without a quotient. -/
theorem Underway.goes_on (hloaded : v.Loaded helpers labels fragments bytes) (h : v.Underway fragments s) :
  ∃ inst, Fetches bytes s.offset inst ∧ s.offset + inst.size ≤ bytes.length ∧
    ((∃ s', Step bytes s s') ∨ inst = .ret ∧ Left v.caller s.processor ∨
      ∃ divisor, inst = .idiv divisor ∧ s.processor.execute inst = none)
  := by
  obtain ⟨inst, hfetch, hinside, hcases⟩ := h.fetches hloaded
  refine ⟨inst, hfetch, hinside, ?_⟩
  rcases hcases with hproceeds | ⟨-, -, distance, target, -, hdistance, htarget, -⟩
  · cases hproceeds with
    | next _ hexecute _ => exact .inl ⟨_, .next hfetch hexecute⟩
    | fault hexecute => exact .inr (.inr ⟨_, rfl, hexecute⟩)
    | call _ _ => exact .inl ⟨_, .call hfetch ⟨⟨rfl, fun _ _ => rfl, fun _ _ => rfl⟩, rfl⟩⟩
    | ret hleft => exact .inr (.inl ⟨rfl, hleft⟩)
  · exact .inl ⟨_, .jump hfetch hdistance htarget⟩

/-- Where a comment stands, nothing is pushed. -/
theorem Underway.level (h : v.Underway fragments s) {before after : List Fragment} {text : String}
    (hsplit : fragments = before ++ .item (.comment text) :: after) (hoffset : s.offset = codeSize before) :
  v.Deep 0 s.processor
  := by
  obtain ⟨before', after', hfragments, hoffset', htraverses, hlast⟩ := h
  have hsize : codeSize before' = codeSize before := hoffset'.symm.trans hoffset
  rw [hsplit] at hfragments
  rcases List.append_eq_append_iff.mp hfragments with ⟨middle, rfl, hmiddle⟩ | ⟨middle, rfl, rfl⟩
  · -- The execution is beyond the comment, with comments and labels alone in between.
    rw [codeSize_append] at hsize
    cases middle with
    | nil =>
      rw [List.nil_append] at hmiddle
      rw [← hmiddle] at htraverses
      exact (Passes.level htraverses rfl).1
    | cons x middle =>
      have hne : x :: middle ≠ [] := List.cons_ne_nil x middle
      refine hlast ((x :: middle).getLast hne) ?_ ?_
      · rw [List.getLast?_append_of_ne_nil _ hne, List.getLast?_eq_getLast_of_ne_nil hne]
      · have hzero : codeSize (x :: middle) = 0 := by omega
        exact size_eq_zero_of_codeSize hzero (List.getLast_mem hne)
  · rw [codeSize_append] at hsize
    cases middle with
    | nil => exact (Passes.level htraverses rfl).1
    | cons x middle =>
      rw [codeSize_cons] at hsize
      exact (Passes.level htraverses (by omega)).1

end

end Invocation

end StackCompiler.Machine
