import Mathlib.Algebra.Group.Nat.Defs
import StackCompiler.Proofs.Machine.Processor

/-!
# Memory and the stack

A word that is put into memory is read back from there, and changes eight bytes only.  `Pushed`
describes the state after words have been pushed: they lie one above the other from `rsp` on, and
bytes that are not among those just below the old `rsp` are as they were.
-/

namespace StackCompiler.Machine

open Register (rsp)

/-- A byte is not among a number of bytes just below an address. -/
def Outside (top : UInt64) (n : Nat) (a : UInt64) : Prop := (a - top).toNat + n < 2 ^ 64

/-- The bytes of a word are not among a number of bytes just below an address. -/
def OutsideWord (top : UInt64) (n : Nat) (a : UInt64) : Prop := ∀ i < 8, Outside top n (a + .ofNat i)

theorem OutsideWord.mono {top a : UInt64} {n k : Nat} (h : OutsideWord top n a) (hk : k ≤ n) :
  OutsideWord top k a
  := fun i hi => Nat.lt_of_le_of_lt (Nat.add_le_add_left hk _) (h i hi)

/-- The word of a number that code carries is the number with its sign, modulo 2⁶⁴. -/
theorem toNat_widened (x : Int32) :
  x.toInt64.toUInt64.toNat = (x.toInt % 2 ^ 64).toNat
  := by
  have hle := x.le_toInt
  have hlt := x.toInt_lt
  have hwide : x.toInt64 = Int64.ofInt x.toInt := by
    apply Int64.toInt_inj.mp
    rw [Int32.toInt_toInt64, Int64.toInt_ofInt_of_le (by omega) (by omega)]
  rw [hwide]
  exact BitVec.toNat_ofInt ..

/-- Code that carries a number `n` which fits into 32 bits with a sign carries `n` itself. -/
theorem toNat_carried {n : Int} (hle : -2 ^ 31 ≤ n) (hlt : n < 2 ^ 31) :
  (Int32.ofInt n).toInt64.toUInt64.toNat = (n % 2 ^ 64).toNat
  := by
  rw [toNat_widened, Int32.toInt_ofInt_of_le hle hlt]

/-- Code that carries a number of bytes `n` below 2³¹ carries `n` itself. -/
theorem ofNat_carried {n : Nat} (hn : n < 2 ^ 31) :
  (Int32.ofNat n).toInt64.toUInt64 = .ofNat n
  := by
  apply UInt64.toNat_inj.mp
  rw [← Int32.ofInt_eq_ofNat, toNat_carried (by omega) (by omega), UInt64.toNat_ofNat']
  omega

/-- Of the numbers of bytes that a stack can have, code carries only those below 2³¹; any other
comes out as something else. -/
theorem ofNat_carried_iff {n : Nat} (hn : n < 2 ^ 63) :
  (Int32.ofNat n).toInt64.toUInt64 = .ofNat n ↔ n < 2 ^ 31
  := by
  constructor
  · intro heq
    have hle := (Int32.ofNat n).le_toInt
    have hlt := (Int32.ofNat n).toInt_lt
    have hnat := congrArg UInt64.toNat heq
    rw [toNat_widened, UInt64.toNat_ofNat'] at hnat
    omega
  · exact ofNat_carried

namespace Processor

variable {p q : Processor}

/-! ### Registers -/

@[simp]
theorem load_set (r : Register) (w : Word) (a : UInt64) :
  (p.set r w).load a = p.load a
  := rfl

/-- Putting into a register what it holds changes nothing. -/
theorem set_self (r : Register) :
  p.set r (p.registers r) = p
  := by
  obtain ⟨registers, flags, memory⟩ := p
  unfold set
  congr 1
  funext other
  split
  · rename_i h
    rw [h]
  · rfl

/-- Of two words that are put into one register the second stays. -/
@[simp]
theorem set_set (r : Register) (v w : Word) :
  (p.set r v).set r w = p.set r w
  := by
  unfold set
  congr 1
  funext other
  dsimp only
  split <;> rfl

/-- Registers other than given ones and the memory are as they were. -/
structure Keeps (changed : List Register) (p q : Processor) : Prop where
  registers_eq : ∀ r, r ∉ changed → q.registers r = p.registers r
  memory_eq : q.memory = p.memory

namespace Keeps

variable {changed : List Register} {r : Processor}

theorem trans (h : Keeps changed p q) (h' : Keeps changed q r) :
  Keeps changed p r
  where
  registers_eq s hs := (h'.registers_eq s hs).trans (h.registers_eq s hs)
  memory_eq := h'.memory_eq.trans h.memory_eq

theorem set {dst : Register} (hdst : dst ∈ changed) (w : Word) :
  Keeps changed p (p.set dst w)
  where
  registers_eq s hs := by
    rw [registers_set, if_neg]
    rintro rfl
    exact hs hdst
  memory_eq := rfl

theorem mono {changed' : List Register} (h : Keeps changed p q) (hsub : changed ⊆ changed') :
  Keeps changed' p q
  where
  registers_eq s hs := h.registers_eq s fun hmem => hs (hsub hmem)
  memory_eq := h.memory_eq

/-- Words in memory are as they were if only registers change. -/
theorem load_eq (h : Keeps changed p q) (a : UInt64) :
  q.load a = p.load a
  := by
  unfold load
  rw [h.memory_eq]

end Keeps

/-! ### Bytes and words -/

/-- A word is read back from where it was put. -/
theorem load_store_self (a : UInt64) (w : Word) :
  (p.store a w).load a = w
  := by
  have hbytes : (List.range 8).map (fun i => (p.store a w).memory (a + .ofNat i)) = bytes64 w := by
    have hlength := length_bytes64 w
    apply List.ext_getElem?
    intro i
    rw [List.getElem?_map]
    by_cases hi : i < 8
    · have hoffset : (a + UInt64.ofNat i - a).toNat = i := by
        rw [UInt64.add_comm, UInt64.add_sub_cancel, UInt64.toNat_ofNat']
        omega
      simp only [List.getElem?_range hi, Option.map_some, store, hoffset]
      rw [List.getElem?_eq_getElem (by omega)]
      rfl
    · rw [List.getElem?_eq_none (by simp; omega), List.getElem?_eq_none (by omega)]
      rfl
  unfold load
  rw [hbytes, ofBytes_bytes64, UInt64.ofNat_toNat]

/-- Bytes other than the eight of a word are as they were when the word is stored. -/
theorem memory_store_of_le {a b : UInt64} (h : 8 ≤ (b - a).toNat) (w : Word) :
  (p.store a w).memory b = p.memory b
  := by
  have hlength := length_bytes64 w
  unfold store
  dsimp only
  rw [List.getElem?_eq_none (by omega)]
  rfl

/-- A word is as it was if its eight bytes are. -/
theorem load_congr {a : UInt64} (h : ∀ i < 8, q.memory (a + .ofNat i) = p.memory (a + .ofNat i)) :
  q.load a = p.load a
  := by
  have hbytes : (List.range 8).map (fun i => q.memory (a + .ofNat i))
      = (List.range 8).map (fun i => p.memory (a + .ofNat i)) := by
    apply List.map_congr_left
    exact fun i hi => h i (List.mem_range.mp hi)
  unfold load
  rw [hbytes]

/-! ### The stack -/

/-- The state after words have been pushed, the last one first in the list.  Given registers may
have changed as well. -/
structure Pushed (changed : List Register) (p : Processor) (words : List Word) (q : Processor) : Prop where
  stack : q.registers rsp = p.registers rsp - .ofNat (8 * words.length)
  word : ∀ i w, words[i]? = some w → q.load (q.registers rsp + .ofNat (8 * i)) = w
  memory : ∀ a, Outside (p.registers rsp) (8 * words.length) a → q.memory a = p.memory a
  registers : ∀ r, r ≠ rsp → r ∉ changed → q.registers r = p.registers r

namespace Pushed

variable {changed : List Register} {words : List Word}

theorem refl (p : Processor) :
  Pushed changed p [] p
  := ⟨by simp, nofun, fun _ _ => rfl, fun _ _ _ => rfl⟩

/-- What the words do not cover is as it was. -/
theorem load_eq (h : Pushed changed p words q) {a : UInt64}
    (ha : OutsideWord (p.registers rsp) (8 * words.length) a) :
  q.load a = p.load a
  := load_congr fun i hi => h.memory _ (ha i hi)

/-- The state after words have been pushed stays one when given registers change, the stack
pointer not among them. -/
theorem keeps (h : Pushed changed p words q) {r : Processor} (hr : Keeps changed q r) (hrsp : rsp ∉ changed) :
  Pushed changed p words r
  := by
  have hstack := hr.registers_eq rsp hrsp
  constructor
  · rw [hstack, h.stack]
  · intro i w hw
    rw [hstack, hr.load_eq]
    exact h.word i w hw
  · intro a ha
    rw [hr.memory_eq]
    exact h.memory a ha
  · intro s hs hchanged
    rw [hr.registers_eq s hchanged]
    exact h.registers s hs hchanged

theorem mono {changed' : List Register} (h : Pushed changed p words q) (hsub : changed ⊆ changed') :
  Pushed changed' p words q
  := { h with registers := fun r hr hchanged => h.registers r hr fun hmem => hchanged (hsub hmem) }

/-- The stack pointer goes down by a word, and whatever is there counts as pushed. -/
theorem extend (h : Pushed changed p words q) {r : Processor} {w : Word}
    (hroom : 8 * (words.length + 1) < 2 ^ 64) (hstack : r.registers rsp = q.registers rsp - 8)
    (hword : r.load (q.registers rsp - 8) = w)
    (hmemory : ∀ a, 8 ≤ (a - (q.registers rsp - 8)).toNat → r.memory a = q.memory a)
    (hregisters : ∀ s, s ≠ rsp → r.registers s = q.registers s) :
  Pushed changed p (w :: words) r
  := by
  have h8 : (8 : UInt64).toNat = 8 := rfl
  have htop := (p.registers rsp).toNat_lt
  constructor
  · rw [hstack, h.stack]
    apply UInt64.toNat_inj.mp
    simp only [UInt64.toNat_sub, UInt64.toNat_ofNat', h8, List.length_cons]
    omega
  · intro i v hv
    cases i with
    | zero =>
      cases hv
      rw [hstack]
      simpa using hword
    | succ i =>
      have hi : i < words.length := Nat.lt_of_succ_lt_succ (List.getElem?_eq_some_iff.mp hv).1
      have hqtop := (q.registers rsp).toNat_lt
      have haddress : r.registers rsp + .ofNat (8 * (i + 1)) = q.registers rsp + .ofNat (8 * i) := by
        rw [hstack]
        apply UInt64.toNat_inj.mp
        simp only [UInt64.toNat_add, UInt64.toNat_sub, UInt64.toNat_ofNat', h8]
        omega
      rw [haddress, ← h.word i v hv]
      apply load_congr
      intro j hj
      apply hmemory
      simp only [UInt64.toNat_add, UInt64.toNat_sub, UInt64.toNat_ofNat', h8]
      omega
  · intro a ha
    have halt := a.toNat_lt
    rw [hmemory a, h.memory a]
    · unfold Outside at ha ⊢
      rw [List.length_cons] at ha
      omega
    · unfold Outside at ha
      rw [h.stack]
      simp only [UInt64.toNat_sub, UInt64.toNat_ofNat', h8, List.length_cons] at ha ⊢
      omega
  · intro s hs hchanged
    rw [hregisters s hs]
    exact h.registers s hs hchanged

/-- Pushing a word more puts it in front of those that were pushed, as long as the words do not go
all around the memory. -/
theorem push (h : Pushed changed p words q) (hroom : 8 * (words.length + 1) < 2 ^ 64) (w : Word) :
  Pushed changed p (w :: words) (q.push w)
  := by
  apply h.extend hroom
  · rfl
  · exact load_store_self _ _
  · exact fun a ha => memory_store_of_le ha w
  · exact fun s hs => if_neg hs

end Pushed

/-- Popping registers other than the stack pointer raises it by a word for each of them, and
leaves all other registers as they were. -/
theorem exists_run_pops (registers : List Register) (hrsp : rsp ∉ registers) (q : Processor) :
  ∃ r, run (registers.map .pop) q = some r ∧
    r.registers rsp = q.registers rsp + .ofNat (8 * registers.length) ∧
    ∀ s, s ∉ registers → s ≠ rsp → r.registers s = q.registers s
  := by
  induction registers generalizing q with
  | nil => exact ⟨q, rfl, by simp, fun _ _ _ => rfl⟩
  | cons first rest ih =>
    rw [List.mem_cons, not_or] at hrsp
    obtain ⟨hfirst, hrest⟩ := hrsp
    have hstack : (q.pop first).registers rsp = q.registers rsp + 8 := by
      simp [pop, hfirst]
    obtain ⟨r, hrun, htop, hothers⟩ := ih hrest (q.pop first)
    refine ⟨r, ?_, ?_, ?_⟩
    · rw [List.map_cons, run_cons]
      exact hrun
    · have h8 : (8 : UInt64).toNat = 8 := rfl
      rw [htop, hstack]
      apply UInt64.toNat_inj.mp
      simp only [UInt64.toNat_add, UInt64.toNat_ofNat', h8, List.length_cons]
      omega
    · intro s hs hne
      rw [List.mem_cons, not_or] at hs
      obtain ⟨hsfirst, hsrest⟩ := hs
      rw [hothers s hsrest hne]
      simp [pop, hsfirst, hne]

/-- Words that lie one above the other are popped into registers one after the other. -/
theorem run_pops (registers : List Register) (hrsp : rsp ∉ registers) (value : Register → Word)
    (hwords : ∀ i r, registers[i]? = some r → q.load (q.registers rsp + .ofNat (8 * i)) = value r) :
  ∃ r, run (registers.map .pop) q = some r ∧
    r.registers rsp = q.registers rsp + .ofNat (8 * registers.length) ∧
    (∀ s ∈ registers, r.registers s = value s) ∧
    ∀ s, s ∉ registers → s ≠ rsp → r.registers s = q.registers s
  := by
  obtain ⟨r, hrun, htop, hothers⟩ := exists_run_pops registers hrsp q
  refine ⟨r, hrun, htop, ?_, hothers⟩
  clear htop hothers
  induction registers generalizing q with
  | nil => simp
  | cons first rest ih =>
    rw [List.mem_cons, not_or] at hrsp
    obtain ⟨hfirst, hrest⟩ := hrsp
    have hstack : (q.pop first).registers rsp = q.registers rsp + 8 := by
      simp [pop, hfirst]
    have hload : q.load (q.registers rsp) = value first := by
      simpa using hwords 0 first rfl
    rw [List.map_cons, run_cons] at hrun
    have hvalues : ∀ s ∈ rest, r.registers s = value s := by
      apply ih hrest _ hrun
      intro i s hs
      have haddress : (q.pop first).registers rsp + .ofNat (8 * i)
          = q.registers rsp + .ofNat (8 * (i + 1)) := by
        have h8 : (8 : UInt64).toNat = 8 := rfl
        rw [hstack]
        apply UInt64.toNat_inj.mp
        simp only [UInt64.toNat_add, UInt64.toNat_ofNat', h8]
        omega
      rw [haddress]
      exact hwords (i + 1) s hs
    intro s hs
    by_cases hmem : s ∈ rest
    · exact hvalues s hmem
    · -- A register that is not popped again has the word of this pop.
      obtain rfl : s = first := (List.mem_cons.mp hs).resolve_right hmem
      obtain ⟨r', hrun', -, hothers⟩ := exists_run_pops rest hrest (q.pop s)
      have hsame : r = r' := Option.some.inj (hrun.symm.trans hrun')
      rw [hsame, hothers s hmem (Ne.symm hfirst)]
      simpa [pop] using hload

end Processor

end StackCompiler.Machine
