import StackCompiler.Proofs.Machine.Execution
import StackCompiler.Proofs.Machine.Services

/-!
# Frames at run time

The code that enters a function saves the base of the frame above and some registers, and keeps the
array of locals in a slot.  `InBody` says of a state in the function that these words are there, where
the base of the frame is, and how many words have been pushed since.  The code that leaves a function
then gives back what was saved.
-/

namespace StackCompiler.Machine

open Register (rax rcx rdx rsp rbp rsi rdi)

/-! ### Words below an address -/

/-- Going down by a sum is going down by one part and then by the other. -/
theorem below_add (b : UInt64) (j k : Nat) :
  b - .ofNat (j + k) = b - .ofNat j - .ofNat k
  := by
  rw [UInt64.ofNat_add]
  grind

namespace Processor

variable {p q : Processor}

/-- A word does not change one that lies elsewhere below an address. -/
theorem load_store_below {b : UInt64} {j k : Nat} (hj : j < 2 ^ 33) (hk : k < 2 ^ 33)
    (h : j + 8 ≤ k ∨ k + 8 ≤ j) (w : Word) :
  (p.store (b - .ofNat j) w).load (b - .ofNat k) = p.load (b - .ofNat k)
  := by
  apply load_congr
  intro i hi
  apply memory_store_of_le
  have hb := b.toNat_lt
  simp only [UInt64.toNat_add, UInt64.toNat_sub, UInt64.toNat_ofNat']
  omega

/-- A word that is not among the bytes just below an address does not change those. -/
theorem load_store_outside {top a : UInt64} {n k : Nat} (h : OutsideWord top n a) (h8 : 8 ≤ k) (hk : k ≤ n)
    (hn : n < 2 ^ 33) (w : Word) :
  (p.store a w).load (top - .ofNat k) = p.load (top - .ofNat k)
  := by
  apply load_congr
  intro i hi
  apply memory_store_of_le
  -- Otherwise the byte is one of the word, and below the address as well.
  by_contra hlt
  have hbyte := h (top - .ofNat k + .ofNat i - a).toNat (by omega)
  have haddress : a + (top - .ofNat k + .ofNat i - a) = top - .ofNat k + .ofNat i := by
    rw [UInt64.add_comm, UInt64.sub_add_cancel]
  have htop := top.toNat_lt
  rw [UInt64.ofNat_toNat, haddress] at hbyte
  unfold Outside at hbyte
  simp only [UInt64.toNat_add, UInt64.toNat_sub, UInt64.toNat_ofNat'] at hbyte
  omega

/-- Taking words from the stack leaves the memory as it was. -/
theorem memory_run_pops {registers : List Register} (h : run (registers.map .pop) p = some q) :
  q.memory = p.memory
  := by
  induction registers generalizing p with
  | nil =>
    cases h
    rfl
  | cons first rest ih =>
    rw [List.map_cons, run_cons] at h
    exact ih (p := p.pop first) h

end Processor

/-! ### States in a function -/

/-- A slot of the frame is as far below the base as its displacement says. -/
theorem address_slot (p : Processor) {k : Nat} (hk : k ≤ 2 ^ 31) :
  p.address rbp (Int32.ofInt (-k)) = p.registers rbp - .ofNat k
  := by
  have hb := (p.registers rbp).toNat_lt
  unfold Processor.address
  apply UInt64.toNat_inj.mp
  rw [UInt64.toNat_add, toNat_carried (show -2 ^ 31 ≤ -(k : Int) by omega) (show -(k : Int) < 2 ^ 31 by omega)]
  simp only [UInt64.toNat_sub, UInt64.toNat_ofNat']
  omega

/-- The slots of the parameters are the first three words below the base. -/
theorem address_parameters (p : Processor) :
  p.address rbp Frame.closure = p.registers rbp - .ofNat 8 ∧
    p.address rbp Frame.locals = p.registers rbp - .ofNat 16 ∧
    p.address rbp Frame.cells = p.registers rbp - .ofNat 24
  := ⟨address_slot p (k := 8) (by decide), address_slot p (k := 16) (by decide),
    address_slot p (k := 24) (by decide)⟩

/-- The registers other than those of the stack. -/
def general : List Register := Register.all.filter fun r => r ≠ rsp ∧ r ≠ rbp

/-- The words that stay in memory while a function runs, with their distances below the base of its
frame: the saved base, the array of locals, and the saved registers. -/
def kept (frame : Nat) (p : Processor) : List (Nat × Word) :=
  (0, p.registers rbp) :: (16, p.registers rsi) ::
    Register.saved.zipIdx.map fun (r, i) => (frame + 8 * (i + 1), p.registers r)

/-- A state in a function with a frame that was called in a given state, when a number of words have
been pushed. -/
structure InBody (frame : Nat) (p : Processor) (depth : Nat) (q : Processor) : Prop where
  base : q.registers rbp = p.registers rsp - 8
  stack : q.registers rsp = p.registers rsp - 8 - .ofNat (frame + Frame.savedBytes + 8 * depth)
  words : ∀ x ∈ kept frame p, q.load (p.registers rsp - 8 - .ofNat x.1) = x.2

/-- The words that stay in memory are the saved base, the array of locals, and words between the
frame and the end of the saved registers. -/
theorem kept_cases {frame : Nat} {p : Processor} {x : Nat × Word} (h : x ∈ kept frame p) :
  x.1 = 0 ∨ x.1 = 16 ∨ frame + 8 ≤ x.1 ∧ x.1 ≤ frame + Frame.savedBytes
  := by
  rcases h with _ | ⟨_, _ | ⟨_, h⟩⟩
  · exact .inl rfl
  · exact .inr (.inl rfl)
  · obtain ⟨⟨r, i⟩, hmem, rfl⟩ := List.mem_map.mp h
    have hi : i < 5 := List.snd_lt_of_mem_zipIdx hmem
    refine .inr (.inr ⟨by dsimp only; omega, ?_⟩)
    change frame + 8 * (i + 1) ≤ frame + 40
    omega

/-- The value of each saved register is among the words that stay in memory, at its own distance.
-/
theorem kept_saved {frame i : Nat} {r : Register} (p : Processor) (h : Register.saved[i]? = some r) :
  (frame + 8 * (i + 1), p.registers r) ∈ kept frame p
  := by
  apply List.mem_cons_of_mem
  apply List.mem_cons_of_mem
  exact List.mem_map.mpr ⟨(r, i), List.mem_zipIdx_iff_getElem?.mpr h, rfl⟩

namespace InBody

variable {frame depth : Nat} {p q r : Processor} (h : InBody frame p depth q)
include h

/-- The stack pointer goes to another depth. -/
theorem move {depth' : Nat} (hkeeps : Processor.Keeps (rsp :: general) q r)
    (hstack : r.registers rsp = p.registers rsp - 8 - .ofNat (frame + Frame.savedBytes + 8 * depth')) :
  InBody frame p depth' r
  where
  base := (hkeeps.registers_eq rbp (by decide)).trans h.base
  stack := hstack
  words x hx := (hkeeps.load_eq _).trans (h.words x hx)

theorem keeps (hkeeps : Processor.Keeps general q r) :
  InBody frame p depth r
  := h.move (hkeeps.mono (List.subset_cons_self ..)) ((hkeeps.registers_eq rsp (by decide)).trans h.stack)

/-- The place of the next word to be pushed is one word further down. -/
theorem lower :
  q.registers rsp - 8 = p.registers rsp - 8 - .ofNat (frame + Frame.savedBytes + 8 * (depth + 1))
  := by
  rw [h.stack]
  exact (below_add _ (frame + Frame.savedBytes + 8 * depth) 8).symm

/-- Raising the stack by some words takes it to where it was before they were pushed. -/
theorem raise {n d : Nat} (hdepth : depth = d + n) :
  q.registers rsp + .ofNat (8 * n) = p.registers rsp - 8 - .ofNat (frame + Frame.savedBytes + 8 * d)
  := by
  have hsum : frame + Frame.savedBytes + 8 * depth = frame + Frame.savedBytes + 8 * d + 8 * n := by omega
  rw [h.stack, hsum, below_add, UInt64.sub_add_cancel]

/-- A word is written at a distance below the base that is not one of those kept. -/
theorem store_below {k : Nat} (hroom : frame + Frame.savedBytes < 2 ^ 33) (hk : k < 2 ^ 33)
    (hapart : 24 ≤ k ∧ k ≤ frame ∨ frame + Frame.savedBytes + 8 ≤ k ∧ 16 ≤ frame) (w : Word) :
  InBody frame p depth (q.store (p.registers rsp - 8 - .ofNat k) w)
  where
  base := h.base
  stack := h.stack
  words x hx := by
    have hcases := kept_cases hx
    rw [Processor.load_store_below hk (by omega) (by omega)]
    exact h.words x hx

/-- Pushing a word leads to a state in the function with one word more.  The word is put below all
that stays in memory. -/
theorem push (hframe : 16 ≤ frame) (hroom : frame + Frame.savedBytes + 8 * (depth + 1) < 2 ^ 33) (w : Word) :
  InBody frame p (depth + 1) (q.push w)
  := by
  have hlowered : InBody frame p (depth + 1) (q.set rsp (q.registers rsp - 8)) :=
    h.move (Processor.Keeps.set List.mem_cons_self _) h.lower
  change InBody frame p (depth + 1) ((q.set rsp (q.registers rsp - 8)).store (q.registers rsp - 8) w)
  nth_rewrite 2 [h.lower]
  exact hlowered.store_below (by omega) hroom (.inr ⟨by omega, hframe⟩) w

/-- Taking a word into a general register leads to a state in the function with one word less. -/
theorem pop {d : Nat} (hdepth : depth = d + 1) {s : Register} (hs : s ∈ general) :
  InBody frame p d (q.pop s)
  := by
  have hne : rsp ≠ s := by
    rintro rfl
    exact absurd hs (by decide)
  apply h.move
  · exact (Processor.Keeps.set List.mem_cons_self _).trans (Processor.Keeps.set (List.mem_cons_of_mem _ hs) _)
  · rw [← h.raise hdepth]
    exact if_neg hne

/-- A word outside the frame is written. -/
theorem store_outside (hroom : frame + Frame.savedBytes + 8 < 2 ^ 33) (hframe : 16 ≤ frame) {a : UInt64}
    (ha : OutsideWord (p.registers rsp) (frame + Frame.savedBytes + 8) a) (w : Word) :
  InBody frame p depth (q.store a w)
  where
  base := h.base
  stack := h.stack
  words x hx := by
    have hcases := kept_cases hx
    have haddress : p.registers rsp - 8 - .ofNat x.1 = p.registers rsp - .ofNat (8 + x.1) :=
      (below_add _ 8 x.1).symm
    have hword := h.words x hx
    rw [haddress] at hword ⊢
    rw [Processor.load_store_outside ha (by omega) (by omega) hroom, hword]

/-- A helper returns. -/
theorem resume (hframe : 16 ≤ frame) (hroom : frame + Frame.savedBytes + 8 * depth < 2 ^ 33)
    (hresumed : Resumed q r) :
  InBody frame p depth r
  where
  base := (hresumed.saved rbp rfl).trans h.base
  stack := hresumed.stack.trans h.stack
  words x hx := by
    refine Eq.trans ?_ (h.words x hx)
    have hcases := kept_cases hx
    by_cases hzero : x.1 = 0
    · have hlink := hresumed.link
      rw [h.base] at hlink
      simpa [hzero] using hlink
    · apply Processor.load_congr
      intro i hi
      apply hresumed.frame
      have hb := (p.registers rsp - 8).toNat_lt
      rw [h.base, h.stack]
      generalize p.registers rsp - 8 = b at hb ⊢
      simp only [UInt64.toNat_add, UInt64.toNat_sub, UInt64.toNat_ofNat']
      omega

/-- The array of locals is in its slot. -/
theorem locals :
  q.load (q.address rbp Frame.locals) = p.registers rsi
  := by
  rw [(address_parameters q).2.1, h.base]
  exact h.words (16, p.registers rsi) (by simp [kept])

end InBody

/-! ### Entering and leaving -/

/-- A state in which a function may return: the stack and the registers that a called function must
keep are as the caller had them. -/
structure Left (p q : Processor) : Prop where
  stack : q.registers rsp = p.registers rsp
  saved : ∀ r : Register, r.isCalleeSaved = true → q.registers r = p.registers r

/-- The instructions that make the frame. -/
def frameInstructions (size : Int32) : List Instruction := [.push rbp, .mov rbp rsp, .binaryImm .sub rsp size]

/-- The instructions that keep the parameters in the frame. -/
def parameterInstructions : List Instruction :=
  [storeSlot Frame.closure rdi, storeSlot Frame.locals rsi, storeSlot Frame.cells rdx]

theorem entryCode_eq (size : Int32) :
  entryCode size = codes (frameInstructions size) ++ codes parameterInstructions
    ++ codes (Register.saved.map .push)
  := rfl

/-- The state of a function whose frame has been made. -/
structure Framed (frame : Nat) (p q : Processor) : Prop where
  base : q.registers rbp = p.registers rsp - 8
  stack : q.registers rsp = q.registers rbp - .ofNat frame
  link : q.load (q.registers rbp) = p.registers rbp
  registers : ∀ r, r ∈ general → q.registers r = p.registers r

section

variable {frame : Nat} {p q : Processor}

/-- The instructions that make the frame do so from every state. -/
theorem run_frameInstructions {size : Int32} (hsize : size.toInt64.toUInt64 = .ofNat frame) (p : Processor) :
  ∃ q, Processor.run (frameInstructions size) p = some q ∧ Framed frame p q
  := by
  refine ⟨_, rfl, rfl, ?_, ?_, ?_⟩
  · change p.registers rsp - 8 - size.toInt64.toUInt64 = _
    rw [hsize]
    rfl
  · exact Processor.load_store_self _ _
  · intro r hr
    have hother : r ≠ rsp ∧ r ≠ rbp := by
      revert r
      decide
    change (if r = rsp then _ else if r = rbp then _ else if r = rsp then _ else p.registers r) = _
    rw [if_neg hother.1, if_neg hother.2, if_neg hother.1]

/-- Storing a word in the frame below its base leaves the frame as it was made. -/
theorem Framed.store (h : Framed frame p q) {k : Nat} (h8 : 8 ≤ k) (hk : k < 2 ^ 33) (w : Word) :
  Framed frame p (q.store (q.registers rbp - .ofNat k) w)
  where
  base := h.base
  stack := h.stack
  link := by
    have hzero : q.registers rbp = q.registers rbp - .ofNat 0 := by simp
    change (q.store _ w).load (q.registers rbp) = _
    rw [← h.link]
    nth_rewrite 2 [hzero]
    nth_rewrite 3 [hzero]
    exact Processor.load_store_below hk (by omega) (by omega) w
  registers := h.registers

/-- The array of locals is kept in its slot. -/
structure Kept (frame : Nat) (p q : Processor) : Prop extends Framed frame p q where
  locals : q.load (q.registers rbp - .ofNat 16) = p.registers rsi

/-- A parameter is kept in a slot. -/
theorem execute_storeSlot {disp : Int32} {k : Nat} (haddress : q.address rbp disp = q.registers rbp - .ofNat k)
    (src : Register) :
  q.execute (storeSlot disp src) = some (q.store (q.registers rbp - .ofNat k) (q.registers src))
  := by
  rw [← haddress]
  rfl

/-- Keeping the parameters puts the array of locals into its slot and leaves the frame as it was
made. -/
theorem Framed.run_parameterInstructions (h : Framed frame p q) :
  ∃ q', Processor.run parameterInstructions q = some q' ∧ Kept frame p q'
  := by
  have hclosure := execute_storeSlot (address_parameters q).1 rdi
  have hframed₁ := h.store (k := 8) (by omega) (by omega) (q.registers rdi)
  generalize hq₁ : q.store (q.registers rbp - .ofNat 8) (q.registers rdi) = q₁ at hclosure hframed₁
  have hlocals := execute_storeSlot (address_parameters q₁).2.1 rsi
  have hframed₂ := hframed₁.store (k := 16) (by omega) (by omega) (q₁.registers rsi)
  generalize hq₂ : q₁.store (q₁.registers rbp - .ofNat 16) (q₁.registers rsi) = q₂ at hlocals hframed₂
  have hbase : q₂.registers rbp = q₁.registers rbp := by rw [← hq₂]; rfl
  have hcells := execute_storeSlot (address_parameters q₂).2.2 rdx
  refine ⟨_, ?_, hframed₂.store (k := 24) (by omega) (by omega) (q₂.registers rdx), ?_⟩
  · unfold parameterInstructions
    rw [Processor.run_cons, hclosure, Option.bind_some, Processor.run_cons, hlocals, Option.bind_some,
      Processor.run_cons, hcells]
    rfl
  · change (q₂.store (q₂.registers rbp - .ofNat 24) _).load (q₂.registers rbp - .ofNat 16) = _
    rw [Processor.load_store_below (by omega) (by omega) (by omega), hbase, ← hq₂, Processor.load_store_self]
    exact hframed₁.registers rsi (by decide)

/-- The registers that a called function must keep are pushed below the frame. -/
theorem Kept.run_pushes (h : Kept frame p q) (hframe : 16 ≤ frame) (hroom : frame < 2 ^ 33) :
  ∃ r, Processor.run (Register.saved.map .push) q = some r ∧ InBody frame p 0 r
  := by
  obtain ⟨r, hrun, hpushed⟩ := pushed_registers Register.saved
    (show Processor.Pushed [] q [] q from .refl q) (by decide) (by decide)
  rw [List.append_nil] at hpushed
  have hstack : r.registers rsp = q.registers rbp - .ofNat (frame + Frame.savedBytes) := by
    rw [hpushed.stack, h.stack, below_add]
    rfl
  have hb := (q.registers rbp).toNat_lt
  -- What lies in the frame or above it is not among what is pushed.
  have hload : ∀ k ≤ frame, (k = 0 ∨ 8 ≤ k) →
      r.load (q.registers rbp - .ofNat k) = q.load (q.registers rbp - .ofNat k) := by
    intro k hk h8
    apply hpushed.load_eq
    intro i hi
    have hlength : 8 * (Register.saved.map q.registers).reverse.length = 40 := rfl
    unfold Outside
    rw [h.stack, hlength]
    simp only [UInt64.toNat_add, UInt64.toNat_sub, UInt64.toNat_ofNat']
    omega
  refine ⟨r, hrun, (hpushed.registers rbp (by decide) (by decide)).trans h.base, ?_, ?_⟩
  · rw [hstack, h.base]
    rfl
  · rw [← h.base]
    rintro x (_ | ⟨_, _ | ⟨_, hx⟩⟩)
    · rw [hload 0 (Nat.zero_le _) (.inl rfl), ← h.link]
      simp
    · rw [hload 16 hframe (.inr (by omega)), h.locals]
    · obtain ⟨⟨s, i⟩, hmem, rfl⟩ := List.mem_map.mp hx
      have hs := List.mem_zipIdx_iff_getElem?.mp hmem
      have hi : i < 5 := List.snd_lt_of_mem_zipIdx hmem
      have hgeneral : ∀ r ∈ Register.saved, r ∈ general := by decide
      have hword : (Register.saved.map q.registers).reverse[4 - i]? = some (q.registers s) := by
        rw [List.getElem?_reverse (show 4 - i < 5 by omega), List.getElem?_map]
        have hindex : (Register.saved.map q.registers).length - 1 - (4 - i) = i := by
          change 5 - 1 - (4 - i) = i
          omega
        rw [hindex, hs]
        rfl
      have haddress : q.registers rbp - .ofNat (frame + 8 * (i + 1))
          = r.registers rsp + .ofNat (8 * (4 - i)) := by
        rw [hstack]
        apply UInt64.toNat_inj.mp
        simp only [UInt64.toNat_add, UInt64.toNat_sub, UInt64.toNat_ofNat', Frame.savedBytes]
        omega
      dsimp only
      rw [haddress, hpushed.word _ _ hword]
      exact h.registers s (hgeneral s (List.mem_of_getElem? hs))

/-- The instructions that leave a function, but for the return itself. -/
def exitInstructions : List Instruction := Register.saved.reverse.map .pop ++ [.leave]

theorem exitCode_eq :
  exitCode = codes exitInstructions ++ [.code .ret]
  := rfl

/-- The saved registers lie on top of the stack, the last one first. -/
theorem InBody.saved_words (h : InBody frame p 0 q) {i : Nat} {s : Register}
    (hs : Register.saved.reverse[i]? = some s) :
  q.load (q.registers rsp + .ofNat (8 * i)) = p.registers s
  := by
  obtain ⟨hi, -⟩ := List.getElem?_eq_some_iff.mp hs
  replace hi : i < Register.saved.length := hi
  rw [List.getElem?_reverse hi] at hs
  have hword := h.words _ (kept_saved p hs)
  have hsum : frame + Frame.savedBytes + 8 * 0 = frame + 8 * (Register.saved.length - 1 - i + 1) + 8 * i := by
    change i < 5 at hi
    change frame + 40 + 8 * 0 = frame + 8 * (5 - 1 - i + 1) + 8 * i
    omega
  have haddress : q.registers rsp + .ofNat (8 * i)
      = p.registers rsp - 8 - .ofNat (frame + 8 * (Register.saved.length - 1 - i + 1)) := by
    rw [h.stack, hsum, below_add (p.registers rsp - 8) (frame + 8 * (Register.saved.length - 1 - i + 1)),
      UInt64.sub_add_cancel]
  rw [haddress]
  exact hword

/-- Leaving a function gives back what the caller had in registers. -/
theorem InBody.run_exit (h : InBody frame p 0 q) :
  ∃ r, Processor.run exitInstructions q = some r ∧ Left p r
  := by
  obtain ⟨r, hrun, -, hsaved, hothers⟩ := Processor.run_pops (q := q) Register.saved.reverse (by decide)
    p.registers fun i s hs => h.saved_words hs
  have hbase : r.registers rbp = p.registers rsp - 8 := by
    rw [hothers rbp (by decide) (by decide), h.base]
  have hlink : r.load (r.registers rbp) = p.registers rbp := by
    have hword : q.load (p.registers rsp - 8) = p.registers rbp := by
      simpa using h.words (0, p.registers rbp) List.mem_cons_self
    rw [hbase, ← hword]
    unfold Processor.load
    rw [Processor.memory_run_pops hrun]
  refine ⟨(r.set rsp (r.registers rbp)).pop rbp, ?_, ?_, ?_⟩
  · unfold exitInstructions
    rw [Processor.run_append, hrun]
    rfl
  · change r.registers rbp + 8 = _
    rw [hbase, UInt64.sub_add_cancel]
  · intro s hs
    by_cases hrbp : s = rbp
    · rw [hrbp]
      exact hlink
    · have hmem : s ∈ Register.saved.reverse ∧ s ≠ rsp := by
        revert hs hrbp
        cases s <;> decide
      rw [← hsaved s hmem.1]
      change (if s = rbp then _ else if s = rsp then _ else if s = rsp then _ else r.registers s) = _
      rw [if_neg hrbp, if_neg hmem.2, if_neg hmem.2]

end

end StackCompiler.Machine
