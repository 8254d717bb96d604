import Mathlib.Algebra.Group.Int.Defs
import Mathlib.Algebra.Group.Nat.Defs
import StackCompiler.Proofs.Meaning.Removal

/-!
# Operations that are carried out in advance

Folding computes with the integers that literals are, and the machine with the 61 bits that
words hold.  The two agree on integers that fit into 61 bits, and what folding gives fits
again.  So an operation on literals can give way to its result, and an operation by a helper to
the inline one for the types at hand.
-/

namespace StackCompiler

open Bytecode (Constant)

/-! ### Integers that fit -/

/-- An integer literal has at most the 61 bits of a payload. -/
def Bytecode.Constant.IsSmall : Constant → Prop
  | .integer n => -2 ^ 60 ≤ n.toInt ∧ n.toInt < 2 ^ 60
  | _ => True

instance : ∀ c : Constant, Decidable c.IsSmall
  | .integer n => inferInstanceAs (Decidable (-2 ^ 60 ≤ n.toInt ∧ n.toInt < 2 ^ 60))
  | .none | .string _ | .boolean _ => .isTrue trivial

namespace Word

theorem toBitVec_wrap (n : Int64) :
  (wrap n).toBitVec = (n.toBitVec <<< 3).sshiftRight 3
  := rfl

/-- What is cut off does not show in a payload. -/
theorem setWidth_wrap (n : Int64) :
  (wrap n).toBitVec.setWidth 61 = n.toBitVec.setWidth 61
  := by
  rw [toBitVec_wrap]
  apply BitVec.eq_of_getLsbD_eq
  intro i hi
  have h₁ : ¬ 64 ≤ i := by omega
  have h₂ : 3 + i < 64 := by omega
  have h₃ : ¬ 3 + i < 3 := by omega
  rw [BitVec.getLsbD_setWidth, BitVec.getLsbD_setWidth, BitVec.getLsbD_sshiftRight,
    BitVec.getLsbD_shiftLeft]
  simp [h₁, h₂, h₃]

/-- What is left of a literal when it is cut fits. -/
theorem isSmall_wrap (n : Int64) :
  (Constant.integer (wrap n)).IsSmall
  := by
  have hwrap : (wrap n).toInt = (n.toBitVec <<< 3).toInt / 2 ^ 3 := by
    change (wrap n).toBitVec.toInt = _
    rw [toBitVec_wrap, BitVec.toInt_sshiftRight, Int.shiftRight_eq_div_pow]
    rfl
  have hle := BitVec.le_toInt (n.toBitVec <<< 3)
  have hlt := BitVec.toInt_lt (x := n.toBitVec <<< 3)
  change -2 ^ 60 ≤ (wrap n).toInt ∧ (wrap n).toInt < 2 ^ 60
  rw [hwrap]
  constructor <;> omega

/-- The payload of an integer. -/
theorem toInt_setWidth (n : Int64) :
  (n.toBitVec.setWidth 61).toInt = n.toInt.bmod (2 ^ 61)
  := by
  rw [BitVec.toInt_setWidth]
  change _ = n.toBitVec.toInt.bmod _
  rw [BitVec.toInt_eq_toNat_bmod, Int.bmod_bmod_of_dvd]
  decide

/-- An integer that fits is its payload. -/
theorem toInt_of_isSmall {n : Int64} (h : (Constant.integer n).IsSmall) :
  (n.toBitVec.setWidth 61).toInt = n.toInt
  := by
  rw [toInt_setWidth]
  obtain ⟨hle, hlt⟩ := h
  apply Int.bmod_eq_of_le <;> omega

end Word

namespace Value

/-- Literals that fit are told apart by their values. -/
theorem ofConstant_inj {l r : Constant} (hl : l.IsSmall) (hr : r.IsSmall) :
  ofConstant l = ofConstant r ↔ l = r
  := by
  cases l <;> cases r <;> simp only [ofConstant, reduceCtorEq, Value.int.injEq, Value.string.injEq,
    Value.bool.injEq, Constant.integer.injEq, Constant.string.injEq, Constant.boolean.injEq]
  rename_i n m
  rw [← BitVec.toInt_inj, Word.toInt_of_isSmall hl, Word.toInt_of_isSmall hr, Int64.toInt_inj]

theorem isObject_ofConstant (c : Constant) :
  (ofConstant c).isObject = false
  := by
  cases c <;> rfl

end Value

namespace IR

/-! ### Operations on literals -/

/-- An operation on integers that succeeds has been given integers. -/
theorem onIntegers_eq_ok {α : Type} {l r : Constant} {operation : Int64 → Int64 → α} {v : α}
    (h : onIntegers l r operation = .ok v) :
  ∃ a b, l = .integer a ∧ r = .integer b ∧ v = operation a b
  := by
  cases l <;> cases r <;> cases h
  exact ⟨_, _, rfl, rfl, rfl⟩

/-- What folding gives fits. -/
theorem BinOp.isSmall_of_fold {op : BinOp} {l r v : Constant} (h : op.fold l r = .ok (some v)) :
  v.IsSmall
  := by
  cases op with
  | add =>
    cases l <;> cases r <;> cases h
    · exact Word.isSmall_wrap _
    · trivial
  | intAdd | sub | mul =>
    obtain ⟨a, b, -, -, hv⟩ := onIntegers_eq_ok h
    cases hv
    exact Word.isSmall_wrap _
  | div =>
    cases l <;> cases r <;> try cases h
    rename_i a b
    simp only [fold, integerOf, bind, Except.bind] at h
    split at h <;> cases h
    exact Word.isSmall_wrap _
  | gt | geq =>
    obtain ⟨a, b, -, -, hv⟩ := onIntegers_eq_ok h
    cases hv
    trivial
  | eq | fastEq =>
    cases h
    trivial
  | and | or =>
    cases l <;> try cases h
    rename_i a
    cases a <;> cases r <;> cases h <;> trivial

/-- What folding of a unary operation gives fits. -/
theorem UnOp.isSmall_of_fold {op : UnOp} {c v : Constant} (h : op.fold c = .ok (some v)) :
  v.IsSmall
  := by
  cases op with
  | neg =>
    cases c <;> cases h
    exact Word.isSmall_wrap _
  | not =>
    cases c <;> cases h
    trivial

/-- The payload of a difference is the difference of the payloads. -/
theorem setWidth_sub (a b : Int64) :
  (a - b).toBitVec.setWidth 61 = a.toBitVec.setWidth 61 - b.toBitVec.setWidth 61
  := by
  apply BitVec.eq_of_toInt_eq
  rw [Word.toInt_setWidth, BitVec.toInt_sub, Word.toInt_setWidth, Word.toInt_setWidth, Int64.toInt_sub,
    Int.bmod_bmod_of_dvd (by decide), Int.bmod_sub_bmod, Int.sub_bmod_bmod]

/-- Division of integers that fit is division of their payloads. -/
theorem setWidth_sdiv {a b : Int64} (ha : (Constant.integer a).IsSmall) (hb : (Constant.integer b).IsSmall) :
  (a / b).toBitVec.setWidth 61 = (a.toBitVec.setWidth 61).sdiv (b.toBitVec.setWidth 61)
  := by
  apply BitVec.eq_of_toInt_eq
  rw [Word.toInt_setWidth, BitVec.toInt_sdiv, Word.toInt_of_isSmall ha, Word.toInt_of_isSmall hb]
  change ((a / b).toBitVec.toInt).bmod _ = _
  rw [Int64.toBitVec_div, BitVec.toInt_sdiv, Int.bmod_bmod_of_dvd (by decide)]
  rfl

/-- Folding an inline operation gives what the machine computes. -/
theorem BinOp.compute?_of_fold {op : BinOp} {l r v : Constant} (hinline : op.isInline = true)
    (hl : l.IsSmall) (hr : r.IsSmall)
    (haccepts : op.accepts (.ofConstant l) (.ofConstant r) = true) (h : op.fold l r = .ok (some v)) :
  op.compute? (.ofConstant l) (.ofConstant r) = some (.ofConstant v)
  := by
  cases op with
  | add | eq => cases hinline
  | intAdd | mul =>
    obtain ⟨a, b, rfl, rfl, hv⟩ := onIntegers_eq_ok h
    cases hv
    simp only [compute?, Value.ofConstant, Word.setWidth_wrap]
    first
      | rw [Int64.toBitVec_add, BitVec.setWidth_add _ _ (by decide)]
      | rw [Int64.toBitVec_mul, BitVec.setWidth_mul _ _ (by decide)]
  | sub =>
    obtain ⟨a, b, rfl, rfl, hv⟩ := onIntegers_eq_ok h
    cases hv
    simp only [compute?, Value.ofConstant, Word.setWidth_wrap, setWidth_sub]
  | div =>
    cases l <;> cases r <;> try cases h
    rename_i a b
    simp only [fold, integerOf, bind, Except.bind] at h
    split at h <;> cases h
    rename_i hzero
    have hne : b.toBitVec.setWidth 61 ≠ 0 := by
      intro heq
      have hconst : Constant.integer b = .integer 0 := by
        rw [← Value.ofConstant_inj hr (by decide)]
        simp [Value.ofConstant, heq]
      exact hzero (Constant.integer.inj hconst)
    simp only [compute?, Value.ofConstant, Word.setWidth_wrap, setWidth_sdiv hl hr, if_neg hne]
  | gt =>
    obtain ⟨a, b, rfl, rfl, hv⟩ := onIntegers_eq_ok h
    cases hv
    simp only [compute?, Value.ofConstant]
    congr 2
    rw [Bool.eq_iff_iff, BitVec.slt_iff_toInt_lt, Word.toInt_of_isSmall hl, Word.toInt_of_isSmall hr,
      decide_eq_true_iff, Int64.lt_iff_toInt_lt]
  | geq =>
    obtain ⟨a, b, rfl, rfl, hv⟩ := onIntegers_eq_ok h
    cases hv
    simp only [compute?, Value.ofConstant]
    congr 2
    rw [Bool.eq_iff_iff, BitVec.sle_iff_toInt_le, Word.toInt_of_isSmall hl, Word.toInt_of_isSmall hr,
      decide_eq_true_iff, Int64.le_iff_toInt_le]
  | fastEq =>
    cases h
    have hequal := Value.ofConstant_inj hl hr
    cases l <;> cases r <;> try cases haccepts
    · simp only [Value.ofConstant, Value.int.injEq] at hequal
      simp only [compute?, Value.ofConstant, hequal]
    · simp only [Value.ofConstant, Value.bool.injEq] at hequal
      simp only [compute?, Value.ofConstant, hequal]
  | and | or =>
    cases l <;> try cases h
    rename_i a
    cases a <;> cases r <;> cases h <;> first | rfl | cases haccepts

/-- The machine computes for a unary operation what folding gives. -/
theorem UnOp.compute?_of_fold {op : UnOp} {c v : Constant} (h : op.fold c = .ok (some v)) :
  op.compute? (.ofConstant c) = some (.ofConstant v)
  := by
  cases op with
  | neg =>
    cases c <;> cases h
    simp only [compute?, Value.ofConstant, Word.setWidth_wrap]
    simp
  | not =>
    cases c <;> cases h
    rfl

variable {World : Type}

/-- Folding an operation by a helper gives what the helper answers. -/
theorem BinOp.serve_of_fold {rt : Runtime World} (hrt : rt.Lawful) {op : BinOp} {l r v : Constant}
    (hl : l.IsSmall) (hr : r.IsSmall) (h : op.fold l r = .ok (some v)) {u : Value} {w w' : World} :
  (op = .add → rt.serve (.add (.ofConstant l) (.ofConstant r)) w = some (u, w') → u = .ofConstant v) ∧
  (op = .eq → rt.serve (.equals (.ofConstant l) (.ofConstant r)) w = some (u, w') → u = .ofConstant v)
  := by
  constructor
  · rintro rfl hserve
    cases l <;> cases r <;> cases h
    · rw [hrt.add_int _ _ _ _ _ hserve]
      simp only [Value.ofConstant, Word.setWidth_wrap, Int64.toBitVec_add]
      rw [BitVec.setWidth_add _ _ (by decide)]
    · exact hrt.add_string _ _ _ _ _ hserve
  · rintro rfl hserve
    cases h
    rw [hrt.equals_scalar _ _ _ _ _ (Value.isObject_ofConstant l) (Value.isObject_ofConstant r) hserve]
    simp only [Value.ofConstant_inj hl hr]
    rfl

/-- An inline operation on operands of its types computes what the helper answers. -/
theorem BinOp.compute?_of_specialized {rt : Runtime World} (hrt : rt.Lawful) {op fast : BinOp}
    {lhs rhs : Operand} (hknown : op.specialized? lhs rhs = some fast) {a b u : Value}
    (ha : a.HasType lhs.types) (hb : b.HasType rhs.types) {w : World}
    (hadd : op = .add → ∃ w', rt.serve (.add a b) w = some (u, w'))
    (heq : op = .eq → ∃ w', rt.serve (.equals a b) w = some (u, w')) :
  fast.compute? a b = some u
  := by
  obtain ⟨types, hl, hr, ⟨rfl, rfl, rfl⟩ | ⟨rfl, rfl, rfl | rfl⟩⟩ := specialized?_eq_some hknown
  · rw [hl, Value.hasType_ints_iff] at ha
    rw [hr, Value.hasType_ints_iff] at hb
    obtain ⟨m, rfl⟩ := ha
    obtain ⟨n, rfl⟩ := hb
    obtain ⟨w', hserve⟩ := hadd rfl
    rw [hrt.add_int _ _ _ _ _ hserve]
    rfl
  · rw [hl, Value.hasType_ints_iff] at ha
    rw [hr, Value.hasType_ints_iff] at hb
    obtain ⟨m, rfl⟩ := ha
    obtain ⟨n, rfl⟩ := hb
    obtain ⟨w', hserve⟩ := heq rfl
    rw [hrt.equals_scalar _ _ _ _ _ rfl rfl hserve]
    simp [compute?]
  · rw [hl, Value.hasType_bools_iff] at ha
    rw [hr, Value.hasType_bools_iff] at hb
    obtain ⟨m, rfl⟩ := ha
    obtain ⟨n, rfl⟩ := hb
    obtain ⟨w', hserve⟩ := heq rfl
    rw [hrt.equals_scalar _ _ _ _ _ rfl rfl hserve]
    simp [compute?]

namespace Function

variable {f : Function} {pos : Nat} {rt : Runtime World} {locals : Nat → Value} {c d : Config World}

/-- The integers among the literals that a function reads fit. -/
def SmallLiterals (f : Function) : Prop := ∀ p id c, f.ReadsAt p id → f.kind id = .const c → c.IsSmall

/-- A literal that a temp is known to equal is read somewhere.  The induction follows the
assignments that lead from it to the temp. -/
theorem exists_literal (wf : f.WellFormed) (hhints : f.Hinted) {t : OperandId} {k : Constant}
    (hread : f.ReadsAt pos t) (ht : f.isTemp t = true) (hk : (f.operand t).constant = some k) :
  ∃ p id, f.ReadsAt p id ∧ f.kind id = .const k
  := by
  induction pos using Nat.strongRecOn generalizing t with
  | ind pos ih =>
    obtain ⟨q, hq, i, hi, hdef⟩ := wf.defined pos t hread ht
    obtain ⟨s, hs, hequals⟩ := hhints.constants q i t k hi hdef hk
    have hsource : f.ReadsAt q s := by
      refine ⟨i, hi, ?_⟩
      cases i <;> cases hs <;> exact List.mem_singleton.mpr rfl
    rcases hequals with hliteral | ⟨hstemp, hsk⟩
    · exact ⟨q, s, hsource, hliteral⟩
    · exact ih q hq hsource hstemp hsk

/-- What a temp that equals a literal holds. -/
theorem Tracks.read_literal (rt : Runtime World) (hf : f.Checked) (hsmall : f.SmallLiterals)
    (hc : f.Tracks c) {inst : Inst} (hfetch : f.fetch c.pos = some inst) {t : OperandId} (ht : t ∈ inst.uses)
    (hassign : ∀ d, inst ≠ .assign d t) {k : Constant} (hk : (f.operand t).constant = some k) :
  f.read rt c t = .ofConstant k ∧ k.IsSmall
  := by
  have htemp := hf.wellFormed.isTemp_of_uses hfetch ht hassign
  obtain ⟨p, id, hread, hid⟩ := exists_literal hf.wellFormed hf.hinted ⟨inst, hfetch, ht⟩ htemp hk
  refine ⟨?_, hsmall p id k hread hid⟩
  rw [IR.Function.read_temp htemp]
  exact (hc.read_temp hf hfetch ht htemp).2 k hk

/-- An operand that is asked for holds the answer. -/
theorem serve_of_ask {request : Request} {dest : OperandId}
    (h : f.perform rt locals c (.ask request (.operand dest)) = .running d) :
  ∃ w, rt.serve request c.world = some (d.cells dest, w)
  := by
  obtain ⟨v, w, hserve, rfl⟩ := exists_answer h
  refine ⟨w, hserve.trans ?_⟩
  congr
  exact (Cells.put_self ..).symm

/-- An operation on literals leaves the literal that folding gives. -/
theorem Tracks.cells_of_fold (hf : f.Checked) (hsmall : f.SmallLiterals) (hrt : rt.Lawful) (hc : f.Tracks c)
    {inst : Inst} {dest : OperandId} {sources : List OperandId} {value : Constant}
    (hfetch : f.fetch c.pos = some inst)
    (hresult : f.foldInst? inst = some (dest, sources, .ok (some value)))
    (hstep : f.step rt locals c = .running d) :
  d.cells dest = .ofConstant value
  := by
  rw [step_of_fetch (lt_size_of_fetch hfetch) hfetch] at hstep
  have hfill : f.perform rt locals c (.fill [(dest, .ofConstant value)]) = .running d →
      d.cells dest = .ofConstant value := by
    intro h
    cases h
    exact Cells.put_self ..
  rcases foldInst?_eq_some hresult with ⟨op, lhs, rhs, l, r, rfl, -, hl, hr, hfold⟩ |
    ⟨op, src, k, rfl, -, hk, hfold⟩
  · have hlu : lhs ∈ (Inst.binary op dest lhs rhs).uses := by simp [Inst.uses]
    have hru : rhs ∈ (Inst.binary op dest lhs rhs).uses := by simp [Inst.uses]
    obtain ⟨hlread, hlsmall⟩ := hc.read_literal rt hf hsmall hfetch hlu (by rintro _ ⟨⟩) hl
    obtain ⟨hrread, hrsmall⟩ := hc.read_literal rt hf hsmall hfetch hru (by rintro _ ⟨⟩) hr
    by_cases hop : op = .add ∨ op = .eq
    · rcases hop with rfl | rfl
      · obtain ⟨w, hserve⟩ := serve_of_ask hstep
        rw [hlread, hrread] at hserve
        exact (BinOp.serve_of_fold hrt hlsmall hrsmall hfold.symm).1 rfl hserve
      · obtain ⟨w, hserve⟩ := serve_of_ask hstep
        rw [hlread, hrread] at hserve
        exact (BinOp.serve_of_fold hrt hlsmall hrsmall hfold.symm).2 rfl hserve
    · rw [not_or] at hop
      have hinline : op.isInline = true := by
        cases op <;> simp_all [BinOp.isInline]
      -- The operands are such that the operation is defined on them.
      obtain ⟨kind, hkind, hsl, hsr⟩ := hf.guarded.binary _ op dest lhs rhs hfetch hinline
      have htl := hf.wellFormed.isTemp_of_uses hfetch hlu (by rintro _ ⟨⟩)
      have htr := hf.wellFormed.isTemp_of_uses hfetch hru (by rintro _ ⟨⟩)
      have haccepts : op.accepts (f.read rt c lhs) (f.read rt c rhs) = true := by
        rw [IR.Function.read_temp htl, IR.Function.read_temp htr]
        exact BinOp.accepts_of_wants hkind (hc.admits hf hfetch hlu htl hsl)
          (hc.admits hf hfetch hru htr hsr)
      rw [hlread, hrread] at haccepts
      have hcompute := BinOp.compute?_of_fold hinline hlsmall hrsmall haccepts hfold.symm
      rw [Inst.action_binary hop.1 hop.2, hlread, hrread, BinOp.perform_of_compute? rt hcompute] at hstep
      exact hfill hstep
  · obtain ⟨hread, -⟩ := hc.read_literal rt hf hsmall hfetch (List.mem_singleton.mpr rfl) (by rintro _ ⟨⟩) hk
    have hcompute := UnOp.compute?_of_fold hfold.symm
    simp only [Inst.action, hread, UnOp.perform_of_compute? rt hcompute] at hstep
    exact hfill hstep

/-- Putting the result of an operation on small literals in its place preserves what a function
does. -/
theorem preservedBy_foldedTo (hrt : rt.Lawful) (hf : f.Checked) (hsmall : f.SmallLiterals) {inst : Inst}
    {dest : OperandId} {sources : List OperandId} {value : Constant} (hfetch : f.fetch pos = some inst)
    (hresult : f.foldInst? inst = some (dest, sources, .ok (some value))) :
  f.PreservedBy rt (f.foldedTo pos dest value)
  := by
  obtain ⟨hdefs, -, hlabel⟩ := defs_of_foldInst? hresult
  have hf' := Edit.checked (.fold hfetch hresult) hf
  have h : f.InPlace (f.foldedTo pos dest value) := inPlace_foldedTo hfetch hlabel
  have hpure : inst.isPure = true ∧ (∀ u, inst ≠ .ret u) ∧ inst.targets f = inst.defs := by
    rcases foldInst?_eq_some hresult with ⟨_, _, _, _, _, rfl, -⟩ | ⟨_, _, _, rfl, -⟩ <;>
      exact ⟨rfl, fun _ => nofun, rfl⟩
  have hview : ∀ p, (f.foldedTo pos dest value).fetch p = _ := fetch_foldedTo hfetch
  have hnew : (f.foldedTo pos dest value).fetch pos = some (.assign dest f.operands.size) := by
    rw [hview, if_pos rfl]
  have hkind : (f.foldedTo pos dest value).kind f.operands.size = .const value := kind_foldedTo_size
  apply h.preservedBy_of_changed hf.wellFormed hf'.wellFormed hf'.isLocal hfetch hpure.2.1
    (I := fun _ c => f.Tracks c)
  · intro p hp
    rw [hview, if_neg hp]
  · exact tracks_start
  · exact fun locals c d hc hstep => hc.step hf hrt.toTyped hstep
  · rintro locals c c' d htracks hc rfl hstep
    have hcell := htracks.cells_of_fold hf hsmall hrt hfetch hresult hstep
    refine ⟨quiet_of_isPure hrt hfetch hpure.1 hstep, [(dest, .ofConstant value)], ?_, ?_, ?_⟩
    · apply step_of_fill
      · rw [hc.pos, hnew]
      · have hread : (f.foldedTo c.pos dest value).read rt c' f.operands.size = .ofConstant value := by
          unfold read
          rw [hkind]
        rw [Inst.action_assign_of_not_remote (by rw [hkind]; rfl), hread]
    · intro id v hmem
      cases List.mem_singleton.mp hmem
      exact hcell
    · rintro t ⟨i, hi, ht⟩
      rw [hnew] at hi
      cases hi
      exact ht
  · intro t ht _
    rw [hpure.2.2, hdefs] at ht
    exact ⟨_, hnew, ht⟩

/-- An operation by a helper can give way to the inline one for the types of its operands. -/
theorem preservedBy_specialized (hrt : rt.Lawful) (hf : f.Checked) {op fast : BinOp}
    {dest lhs rhs : OperandId} (hfetch : f.fetch pos = some (.binary op dest lhs rhs))
    (hknown : op.specialized? (f.operand lhs) (f.operand rhs) = some fast) :
  f.PreservedBy rt (f.specialized pos fast dest lhs rhs)
  := by
  have hf' := Edit.checked (.specialize hfetch hknown) hf
  have h : f.InPlace (f.specialized pos fast dest lhs rhs) := inPlace_specialized hfetch
  have hview : ∀ p, (f.specialized pos fast dest lhs rhs).fetch p = _ := fetch_specialized hfetch
  have hnew : (f.specialized pos fast dest lhs rhs).fetch pos = some (.binary fast dest lhs rhs) := by
    rw [hview, if_pos rfl]
  apply h.preservedBy_of_changed hf.wellFormed hf'.wellFormed hf'.isLocal hfetch (by rintro _ ⟨⟩)
    (I := fun _ c => f.Tracks c)
  · intro p hp
    rw [hview, if_neg hp]
  · exact tracks_start
  · exact fun locals c d hc hstep => hc.step hf hrt.toTyped hstep
  · rintro locals c c' d htracks hc rfl hstep
    have hquiet := quiet_of_isPure hrt hfetch rfl hstep
    have hlu : lhs ∈ (Inst.binary op dest lhs rhs).uses := by simp [Inst.uses]
    have hru : rhs ∈ (Inst.binary op dest lhs rhs).uses := by simp [Inst.uses]
    have htl := hf.wellFormed.isTemp_of_uses hfetch hlu (by rintro _ ⟨⟩)
    have htr := hf.wellFormed.isTemp_of_uses hfetch hru (by rintro _ ⟨⟩)
    have hfits := hf.wellFormed.fits _ _ hfetch
    have hread : ∀ t, f.isTemp t = true → t ∈ (Inst.binary fast dest lhs rhs).uses →
        t < f.operands.size → (f.specialized c.pos fast dest lhs rhs).read rt c' t = f.read rt c t := by
      intro t ht hu hlt
      apply hc.read_eq h hf'.wellFormed hf'.isLocal hnew hu hlt
      obtain ⟨n, hn⟩ := isTemp_iff.mp ht
      rw [hn]
      rfl
    obtain ⟨hl, hr⟩ := hf.hinted.hasType_of_specialized? hf.wellFormed hfetch hknown
    have hlt := hl _ (htracks.read_temp hf hfetch hlu htl).1
    have hrt' := hr _ (htracks.read_temp hf hfetch hru htr).1
    rw [step_of_fetch (lt_size_of_fetch hfetch) hfetch] at hstep
    have hcompute : fast.compute? (f.read rt c lhs) (f.read rt c rhs) = some (d.cells dest) := by
      rw [IR.Function.read_temp htl, IR.Function.read_temp htr]
      apply BinOp.compute?_of_specialized hrt hknown hlt hrt' (w := c.world)
      · rintro rfl
        rw [← IR.Function.read_temp htl, ← IR.Function.read_temp htr]
        exact serve_of_ask hstep
      · rintro rfl
        rw [← IR.Function.read_temp htl, ← IR.Function.read_temp htr]
        exact serve_of_ask hstep
    refine ⟨hquiet, [(dest, d.cells dest)], ?_, ?_, ?_⟩
    · apply step_of_fill
      · rw [hc.pos, hnew]
      · rw [Inst.action_binary, hread lhs htl hlu (hfits.use_lt lhs hlu),
          hread rhs htr hru (hfits.use_lt rhs hru), BinOp.perform_of_compute? rt hcompute]
        · rfl
        · rintro rfl
          cases hcompute
        · rintro rfl
          cases hcompute
    · intro id v hmem
      cases List.mem_singleton.mp hmem
      rfl
    · rintro t ⟨i, hi, ht⟩
      rw [hnew] at hi
      cases hi
      exact ht
  · intro t ht _
    exact ⟨_, hnew, ht⟩

end Function

end IR

end StackCompiler
