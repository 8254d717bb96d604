import StackCompiler.Proofs.Machine.Folding
import StackCompiler.Proofs.Meaning.Optimizer
import StackCompiler.Proofs.Passes.Schedule

/-!
# Assertions that are left out

A sweep leaves out the assertions that hints prove.  Hints are true of every run, so an assertion
on the type of a value would have succeeded.  An assertion that a divisor is not zero goes by the
literal that the divisor equals, and the word that is loaded holds no more of a literal than its
payload: the assertion would have succeeded unless the literal is a multiple of the range of
payloads.  Literals that fit are none but zero.
-/

namespace StackCompiler

open Bytecode (Constant)

namespace Word

/-- The word of an integer that fits. -/
def ofPayload (n : BitVec 61) : Word := ⟨n ++ (0 : BitVec 3)⟩

/-- The word of an integer says that it is one. -/
theorem tag_ofPayload (n : BitVec 61) :
  (ofPayload n).tag = .integer
  := by
  rw [tag_eq_integer_iff]
  change (n ++ (0 : BitVec 3)).toNat % 8 = 0
  rw [BitVec.toNat_append]
  simp [Nat.shiftLeft_eq]

/-- A literal is loaded with what a payload holds of it. -/
theorem ofPayload_setWidth (n : Int64) :
  ofPayload (n.toBitVec.setWidth 61) = ofInt n
  := by
  apply UInt64.toBitVec_inj.mp
  change n.toBitVec.setWidth 61 ++ (0 : BitVec 3) = n.toBitVec <<< 3
  apply BitVec.eq_of_getLsbD_eq
  intro i hi
  rw [BitVec.getLsbD_append]
  simp only [BitVec.ofNat_eq_ofNat, BitVec.getLsbD_zero, BitVec.getLsbD_setWidth, BitVec.getLsbD_shiftLeft]
  grind

/-- The word of a literal is that of zero if its payload is zero. -/
theorem ofInt_wrap_eq_zero_iff {n : Int64} :
  ofInt (wrap n) = ofInt 0 ↔ wrap n = 0
  := by
  constructor
  · intro h
    have hnumber := congrArg (fun w : Word => w.toInt64.toInt) h
    rw [toInt_ofInt_of_isSmall (isSmall_wrap n)] at hnumber
    apply Int64.toInt_inj.mp
    have hzero : (ofInt 0).toInt64.toInt = 0 := rfl
    change (wrap n).toInt = 0
    omega
  · intro h
    rw [h]

/-- Integers that fit have different words. -/
theorem ofPayload_inj {n m : BitVec 61} :
  ofPayload n = ofPayload m ↔ n = m
  := by
  constructor
  · exact fun h => (BitVec.append_left_inj 0).mp (UInt64.toBitVec_inj.mpr h)
  · exact congrArg ofPayload

end Word

/-! ### The words of values -/

/-- Where the values of the heap are: each has a word that says that it is a pointer. -/
abbrev Heap := Value → { w : Word // w.tag = .pointer }

/-- The word of a value. -/
def Value.word (heap : Heap) : Value → Word
  | int n => Word.ofPayload n
  | bool b => Word.ofBool b
  | none => Word.noneWord
  | v => heap v

/-- The tag of the word of a value. -/
def Value.tag : Value → Word.Tag
  | int _ => .integer
  | bool _ => .boolean
  | none => .none
  | _ => .pointer

/-- The word of a value has the tag of the value. -/
theorem Value.tag_word (heap : Heap) (v : Value) :
  (v.word heap).tag = v.tag
  := by
  cases v with
  | int n => exact Word.tag_ofPayload n
  | bool b => exact (show ∀ b, (Word.ofBool b).tag = .boolean by decide) b
  | none => exact (show Word.noneWord.tag = .none by decide)
  | string s => exact (heap (.string s)).2
  | object n => exact (heap (.object n)).2

theorem Value.word_ofConstant (heap : Heap) (n : Int64) :
  (Value.ofConstant (.integer n)).word heap = Word.ofInt (Word.wrap n)
  := by
  rw [Word.ofInt_wrap]
  exact Word.ofPayload_setWidth n

/-- The only value with the word of zero is zero. -/
theorem Value.word_eq_zero_iff {heap : Heap} {v : Value} :
  v.word heap = Word.ofInt 0 ↔ v = .int 0
  := by
  have hzero : Word.ofInt 0 = (Value.int 0).word heap := (Word.ofPayload_setWidth 0).symm
  rw [hzero]
  constructor
  · intro h
    have htag := congrArg Word.tag h
    rw [tag_word, tag_word] at htag
    cases v with
    | int n => exact congrArg _ (Word.ofPayload_inj.mp h)
    | bool _ | none | string _ | object _ => cases htag
  · rintro rfl
    rfl

/-- Whether an assertion succeeds on a word. -/
def IR.AssertKind.passes (w : Word) : AssertKind → Bool
  | int => w.tag = .integer
  | bool => w.tag = .boolean
  | notZero => w ≠ Word.ofInt 0

/-- An assertion succeeds on the words of the values that meet it. -/
theorem IR.AssertKind.passes_word (heap : Heap) (kind : AssertKind) (v : Value) :
  kind.passes (v.word heap) = kind.admits v
  := by
  cases kind with
  | int =>
    change decide ((v.word heap).tag = .integer) = _
    rw [Value.tag_word]
    cases v <;> rfl
  | bool =>
    change decide ((v.word heap).tag = .boolean) = _
    rw [Value.tag_word]
    cases v <;> rfl
  | notZero =>
    change decide (v.word heap ≠ Word.ofInt 0) = decide (v ≠ .int 0)
    exact decide_eq_decide.mpr (not_congr Value.word_eq_zero_iff)

namespace IR

/-! ### What a sweep leaves out -/

namespace State

variable {s : State} {pos : Nat} {kind : AssertKind} {arg : OperandId}

/-- The state in the midst of its sweep, when the instructions after a position are swept. -/
def sweptAfter (s : State) (pos : Nat) : State :=
  (s.func.live.reverse.takeWhile fun e => decide (pos < e.1)).foldl sweepAt s

/-- An assertion that goes in a sweep is proved, or its argument is obsolete. -/
theorem holds_of_swept (hfetch : s.func.fetch pos = some (.assertion kind arg))
    (hkept : (s.sweptAfter pos).isObsolete arg = false) (hgone : s.sweep.func.fetch pos = none) :
  kind.holds (s.func.operand arg) = true
  := by
  have hmem : (pos, Inst.assertion kind arg) ∈ s.func.live.reverse :=
    List.mem_reverse.mpr (Function.mem_live.mpr hfetch)
  obtain ⟨later, earlier, hsplit⟩ := List.append_of_mem hmem
  have hsorted := pairwise_reverse_live s.func
  have hentries : ∀ e ∈ s.func.live.reverse, s.func.fetch e.1 = some e.2 := fun e he =>
    fetch_of_mem_reverse_live he
  rw [hsplit] at hsorted hentries
  obtain ⟨hlater, hrest, hbetween⟩ := List.pairwise_append.mp hsorted
  obtain ⟨hearlier, hearlierSorted⟩ := List.pairwise_cons.mp hrest
  have hafter : s.sweptAfter pos = later.foldl sweepAt s := by
    unfold sweptAfter
    rw [hsplit, List.takeWhile_append_of_pos, List.takeWhile_cons_of_neg, List.append_nil]
    · simp
    · exact fun e he => decide_eq_true (hbetween e he _ List.mem_cons_self)
  obtain ⟨hoperands, -, hfetches⟩ := sweptAll later hlater fun e he =>
    hentries e (List.mem_append_left _ he)
  rw [← hafter] at hoperands hfetches
  by_contra hproved
  have hstep : (s.sweptAfter pos).sweepAt (pos, .assertion kind arg) = s.sweptAfter pos := by
    have hoperand : (s.sweptAfter pos).func.operand arg = s.func.operand arg := by
      unfold Function.operand
      rw [hoperands]
    simp only [sweepAt, hkept, hoperand, Bool.not_eq_true _ ▸ hproved, Bool.or_false]
    rfl
  obtain ⟨-, -, hkeep⟩ := sweptAll (s := s.sweptAfter pos) earlier hearlierSorted fun e he => by
    rw [hfetches e.1 fun e' he' => Nat.ne_of_lt (hbetween e' he' e (List.mem_cons_of_mem _ he))]
    exact hentries e (List.mem_append_right _ (List.mem_cons_of_mem _ he))
  have hpos : s.sweep.func.fetch pos = s.func.fetch pos := by
    unfold sweep
    rw [hsplit, List.foldl_append, List.foldl_cons, ← hafter, hstep]
    change (earlier.foldl sweepAt (s.sweptAfter pos)).func.fetch pos = _
    rw [hkeep pos fun e he => Nat.ne_of_gt (hearlier e he)]
    exact hfetches pos fun e he => Nat.ne_of_lt (hbetween e he _ List.mem_cons_self)
  rw [hpos, hfetch] at hgone
  cases hgone

end State

/-! ### Runs -/

/-- That a divisor is not zero is proved only if it equals an integer literal that is not zero. -/
theorem AssertKind.exists_of_holds_notZero {o : Operand} (h : AssertKind.notZero.holds o = true) :
  ∃ n, o.constant = some (.integer n) ∧ n ≠ 0
  := by
  unfold holds at h
  dsimp only at h
  split at h
  · rename_i n hn
    exact ⟨n, hn, of_decide_eq_true h⟩
  · cases h

/-- True hints and guarded operations are kept by the optimizer. -/
theorem Function.Checked.kept :
  Kept Function.Checked
  where
  edit _ _ hf h := h.checked hf
  shorten _ _ _ hf hfetch := hf.shortened hfetch

/-- That literals fit is kept by the optimizer, along with true hints and guarded operations. -/
theorem Function.SmallLiterals.kept :
  Kept fun f => f.Checked ∧ f.SmallLiterals
  where
  edit _ _ hf h := ⟨h.checked hf.1, h.smallLiterals hf.1.wellFormed hf.2⟩
  shorten _ _ _ hf hfetch := ⟨hf.1.shortened hfetch, hf.2.shortened hf.1.wellFormed hfetch⟩

variable {World : Type} {f : Function} {rt : Runtime World} {c : Config World} {kind : AssertKind}
  {arg : OperandId}

/-- What hints prove of the argument of an assertion is true of the value that it has there. -/
theorem Function.Tracks.admits_of_holds (rt : Runtime World) (hf : f.Checked) (hc : f.Tracks c)
    (hfetch : f.fetch c.pos = some (.assertion kind arg)) (hholds : kind.holds (f.operand arg) = true) :
  (kind ≠ .notZero → kind.admits (f.read rt c arg) = true) ∧
    (kind = .notZero → ∃ n, (f.operand arg).constant = some (.integer n) ∧ n ≠ 0 ∧
      f.read rt c arg = .ofConstant (.integer n))
  := by
  have htemp := hf.wellFormed.isTemp_of_uses hfetch List.mem_cons_self (by rintro _ ⟨⟩)
  obtain ⟨hmay, hconstant⟩ := hc.read_temp hf hfetch List.mem_cons_self htemp
  rw [IR.Function.read_temp htemp]
  constructor
  · intro hkind
    obtain ⟨hne, hadmits⟩ := AssertKind.admits_of_holds hkind hholds
    exact hadmits (hf.hinted.hasType (hmay.lt_size hf.wellFormed) hmay hne)
  · rintro rfl
    obtain ⟨n, hn, hne⟩ := AssertKind.exists_of_holds_notZero hholds
    exact ⟨n, hn, hne, hconstant _ hn⟩

/-- Whenever the optimizer sweeps lowered code that keeps no values on the stack over jumps, an
assertion that goes without an obsolete argument would have succeeded in every run, unless it is
one that the value is not zero and the value is loaded from a literal that is not zero but whose
payload is.  It would have succeeded where all literals fit. -/
theorem passes_of_swept {f : Bytecode.Function} {g : Function} (hlower : lower f = .ok g)
    (hempty : f.EmptyAtJumps) {o : Options} {t : State}
    (ht : t ∈ (State.initial g o).sweeps (PassName.schedule o)) {pos : Nat} {kind : AssertKind}
    {arg : OperandId} (hfetch : t.func.fetch pos = some (.assertion kind arg))
    (hkept : (t.sweptAfter pos).isObsolete arg = false) (hgone : t.sweep.func.fetch pos = none)
    {World : Type} {rt : Runtime World} (hrt : rt.Typed) (heap : Heap) {locals : Nat → Value}
    {scratch : Cells} {world : World} {n : Nat} {c : Config World}
    (hrun : t.func.run rt locals n (t.func.start locals scratch world) = .running c) (hpos : c.pos = pos) :
  (kind.passes ((t.func.read rt c arg).word heap) = true ∨
    kind = .notZero ∧ ∃ m, (t.func.operand arg).constant = some (.integer m) ∧ m ≠ 0 ∧ Word.wrap m = 0 ∧
      (t.func.read rt c arg).word heap = Word.ofInt (Word.wrap m)) ∧
    ((∀ k ∈ f.constants, k.IsSmall) → kind.passes ((t.func.read rt c arg).word heap) = true)
  := by
  obtain ⟨-, hloaded, -⟩ := State.loadVars_lower hlower hempty (rfl : (State.initial g o).ctx.obsolete = [])
  have hchecked := Function.Checked.kept.of_mem_schedule hlower hempty hloaded ht
  have hc := (Function.tracks_start locals scratch world).run hchecked hrt hrun
  have hholds := State.holds_of_swept hfetch hkept hgone
  subst hpos
  obtain ⟨htypes, hzero⟩ := hc.admits_of_holds rt hchecked hfetch hholds
  by_cases hkind : kind = .notZero
  · obtain ⟨m, hm, hne, hvalue⟩ := hzero hkind
    subst hkind
    have hword : (t.func.read rt c arg).word heap = Word.ofInt (Word.wrap m) := by
      rw [hvalue, Value.word_ofConstant]
    have hpasses : Word.wrap m ≠ 0 → AssertKind.notZero.passes ((t.func.read rt c arg).word heap) = true := by
      intro hwrap
      rw [hword]
      exact decide_eq_true fun h => hwrap (Word.ofInt_wrap_eq_zero_iff.mp h)
    constructor
    · by_cases hwrap : Word.wrap m = 0
      · exact .inr ⟨rfl, m, hm, hne, hwrap, hword⟩
      · exact .inl (hpasses hwrap)
    · intro hsmall
      have hliterals := Function.smallLiterals_withLoads (Lowering.smallLiterals_lower hlower hsmall)
        (Lowering.sound_lower hlower).1 g.entryLoads
      obtain ⟨-, hfits⟩ := Function.SmallLiterals.kept.of_mem_schedule hlower hempty ⟨hloaded, hliterals⟩ ht
      have hsmall := (hc.read_literal rt hchecked hfits hfetch List.mem_cons_self (by rintro _ ⟨⟩) hm).2
      apply hpasses
      rwa [Word.wrap_of_isSmall hsmall]
  · have hadmits := htypes hkind
    rw [AssertKind.passes_word]
    exact ⟨.inl hadmits, fun _ => hadmits⟩

/-- A function that divides its argument by a literal. -/
def divisionBy (n : Int64) : Bytecode.Function where
  constants := [.integer n]
  parameterCount := 1
  localVars := ["x"]
  instructions := [⟨.loadLocal, some 0⟩, ⟨.loadConst, some 0⟩, ⟨.div, none⟩, ⟨.ret, none⟩]

/-- A sweep of the optimizer leaves out the assertion at a position, whose argument is not
obsolete, and a run of the code comes to it with a value. -/
structure LeavesOut (f : Bytecode.Function) (t : State) (pos : Nat) (kind : AssertKind) (arg : OperandId)
    (c : Config Unit) (v : Value) : Prop where
  swept : ∃ g, lower f = .ok g ∧ t ∈ (State.initial g {}).sweeps (PassName.schedule {})
  fetch : t.func.fetch pos = some (.assertion kind arg)
  kept : (t.sweptAfter pos).isObsolete arg = false
  gone : t.sweep.func.fetch pos = none
  run : t.func.run .arithmetic (fun _ => .int 6) pos (t.func.start (fun _ => .int 6) (fun _ => .none) ())
    = .running c
  pos_eq : c.pos = pos
  read_eq : t.func.read .arithmetic c arg = v

/-- Whether the second sweep of the optimizer leaves out an assertion that a run with some value
comes to. -/
def leavesOut (f : Bytecode.Function) (pos : Nat) (kind : AssertKind) (arg : OperandId) (v : Value) : Bool :=
  match lower f with
  | .ok g => ((State.initial g {}).sweeps (PassName.schedule {}))[1]?.any fun t =>
    t.func.fetch pos == some (.assertion kind arg) && !(t.sweptAfter pos).isObsolete arg &&
      (t.sweep.func.fetch pos).isNone &&
      match t.func.run .arithmetic (fun _ => .int 6) pos
          (t.func.start (fun _ => .int 6) (fun _ => .none) ()) with
      | .ended _ => false
      | .running c => c.pos == pos && t.func.read .arithmetic c arg == v
  | .error _ => false

/-- If the check finds that a sweep leaves out an assertion, it does, in the state and at the run
that were checked. -/
theorem exists_of_leavesOut {f : Bytecode.Function} {pos : Nat} {kind : AssertKind} {arg : OperandId}
    {v : Value} (h : leavesOut f pos kind arg v = true) :
  ∃ t c, LeavesOut f t pos kind arg c v
  := by
  unfold leavesOut at h
  split at h
  · rename_i g hg
    obtain ⟨t, ht, hsteps⟩ := (Option.any_eq_true _ _).mp h
    simp only [Bool.and_eq_true, beq_iff_eq, Bool.not_eq_true', Option.isNone_iff_eq_none] at hsteps
    obtain ⟨⟨⟨hfetch, hkept⟩, hgone⟩, hruns⟩ := hsteps
    split at hruns
    · cases hruns
    · rename_i c hrun
      simp only [Bool.and_eq_true, beq_iff_eq] at hruns
      exact ⟨t, c, ⟨g, hg, List.mem_of_getElem? ht⟩, hfetch, hkept, hgone, hrun, hruns.1, hruns.2⟩
  · cases h

/-- The assertion that two is not zero is left out. -/
theorem passes_of_swept_two :
  ∃ t c, LeavesOut (divisionBy 2) t 5 .notZero 3 c (.int 2) ∧ (divisionBy 2).EmptyAtJumps ∧
    (∀ k ∈ (divisionBy 2).constants, k.IsSmall) ∧
    ∀ heap, AssertKind.notZero.passes ((t.func.read .arithmetic c 3).word heap) = true
  := by
  have hleaves : leavesOut (divisionBy 2) 5 .notZero 3 (.int 2) = true := by decide +kernel
  obtain ⟨t, c, h⟩ := exists_of_leavesOut hleaves
  have hempty : (divisionBy 2).EmptyAtJumps := by decide +kernel
  have hsmall : ∀ k ∈ (divisionBy 2).constants, k.IsSmall := by decide
  obtain ⟨g, hg, ht⟩ := h.swept
  refine ⟨t, c, h, hempty, hsmall, fun heap => ?_⟩
  exact (passes_of_swept hg hempty ht h.fetch h.kept h.gone Runtime.lawful_arithmetic.toTyped heap h.run
    h.pos_eq).2 hsmall

/-- The assertion that a divisor is not zero is left out for a literal that is loaded as zero. -/
theorem not_passes_of_swept_wide :
  ∃ t c, LeavesOut (divisionBy 2305843009213693952) t 5 .notZero 3 c (.int 0) ∧
    (divisionBy 2305843009213693952).EmptyAtJumps ∧
    ∀ heap, (t.func.read .arithmetic c 3).word heap = Word.ofInt 0 ∧
      AssertKind.notZero.passes ((t.func.read .arithmetic c 3).word heap) = false
  := by
  have hleaves : leavesOut (divisionBy 2305843009213693952) 5 .notZero 3 (.int 0) = true := by
    decide +kernel
  obtain ⟨t, c, h⟩ := exists_of_leavesOut hleaves
  have hempty : (divisionBy 2305843009213693952).EmptyAtJumps := by decide +kernel
  refine ⟨t, c, h, hempty, fun heap => ?_⟩
  rw [h.read_eq, AssertKind.passes_word]
  exact ⟨Value.word_eq_zero_iff.mpr rfl, rfl⟩

end IR

end StackCompiler
