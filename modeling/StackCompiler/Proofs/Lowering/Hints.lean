import StackCompiler.Proofs.Lowering.Structure
import StackCompiler.Proofs.Typing.Guards

/-!
# What is known of lowered code

`Fresh` is what holds before any pass: a temp has the types that its operation always gives
and equals no literal, and operations on one type follow the assertions that check it.  The
hints of such code are true and its operations are guarded.
-/

namespace StackCompiler.IR

namespace Function

variable {f : Function}

/-- A temp is checked before a position. -/
def CheckedBefore (f : Function) (pos : Nat) (kind : AssertKind) (t : OperandId) : Prop :=
  ∃ q, q < pos ∧ f.fetch q = some (.assertion kind t)

/-- Code that no pass has changed. -/
structure Fresh (f : Function) : Prop where
  known : f.Known
  defs : ∀ p i t, f.fetch p = some i → t ∈ i.defs → t < f.operands.size ∧
    (f.operand t).types = i.resultTypes ∧ (f.operand t).constant = none
  binary : ∀ p op d l r, f.fetch p = some (.binary op d l r) → op.isInline = true →
    ∃ kind ∈ op.wants, f.CheckedBefore p kind l ∧ f.CheckedBefore p kind r
  unary : ∀ p op d s, f.fetch p = some (.unary op d s) → f.CheckedBefore p op.demands s

/-- A variable of which types are known may be anything. -/
theorem Known.hasType_var (h : f.Known) {x : OperandId} (hx : f.isVar x = true)
    (hlt : x < f.operands.size) (hne : (f.operand x).types ≠ .empty) (v : Value) :
  v.HasType (f.operand x).types
  := by
  obtain ⟨n, hn⟩ := isVar_iff.mp hx
  have htypes := h.var_types x n hlt hn
  split at htypes
  · rw [htypes]
    exact Value.hasType_any v
  · exact absurd htypes hne

/-- What an instruction gives has the types that are known of its result. -/
theorem Fresh.hasType (h : f.Fresh) (wf : f.WellFormed) {M : OperandId → Value → Prop} {p : Nat}
    {inst : Inst} {id : OperandId} {v : Value} (hfetch : f.fetch p = some inst)
    (hgives : f.Gives M inst id v) (hne : (f.operand id).types ≠ .empty) :
  v.HasType (f.operand id).types
  := by
  have hdefs : ∀ t ∈ inst.defs, (f.operand t).types = inst.resultTypes :=
    fun t ht => (h.defs p inst t hfetch ht).2.1
  have hvar : ∀ x, f.isVar x = true → x < f.operands.size → id = x → v.HasType (f.operand id).types := by
    rintro x hx hlt rfl
    exact h.known.hasType_var hx hlt hne v
  cases inst with
  | assign d s =>
    obtain ⟨rfl, -⟩ := hgives
    exact absurd (hdefs _ (List.mem_singleton.mpr rfl)) hne
  | binary op d l r =>
    obtain ⟨rfl, a, b, -, -, hv⟩ := hgives
    have htypes := hdefs _ (List.mem_singleton.mpr rfl)
    rw [htypes] at hne ⊢
    cases op
    case add => exact absurd rfl hne
    all_goals exact hv
  | unary op d s =>
    obtain ⟨rfl, -, hv⟩ := hgives
    rw [hdefs _ (List.mem_singleton.mpr rfl)]
    exact hv
  | fork s a b =>
    have hid : id ∈ (Inst.fork s a b).defs := by simpa [Inst.defs] using hgives.1
    exact absurd (hdefs id hid) hne
  | store x s => exact hvar x hgives.2.1 ((wf.fits p _ hfetch).store_place x s rfl).1 hgives.1
  | forceLoad x =>
    obtain ⟨hlt, hx⟩ := (wf.fits p _ hfetch).load_var x rfl
    exact hvar x hx hlt hgives
  | _ => exact hgives.elim

/-- The hints of code that no pass has changed are true. -/
theorem Fresh.hinted (h : f.Fresh) (wf : f.WellFormed) :
  f.Hinted
  := by
  refine ⟨?_, ?_, fun id c hid hk => h.known.const_constant id c hid hk⟩
  · intro id hid
    by_cases hempty : (f.operand id).types = .empty
    · exact .inl hempty
    · right
      intro v hv
      rcases hv.cases with hp | ⟨inst, ⟨p, hp⟩, hgives⟩
      · exact h.known.hasType_var (isVar_of_isParameter hp) hid hempty v
      · exact h.hasType wf hp hgives hempty
  · intro p i t c hi ht hc
    rw [(h.defs p i t hi ht).2.2] at hc
    cases hc

/-- The operations of code that no pass has changed are guarded. -/
theorem Fresh.guarded (h : f.Fresh) :
  f.Guarded
  := by
  constructor
  · intro p op d l r hfetch hop
    obtain ⟨kind, hkind, hl, hr⟩ := h.binary p op d l r hfetch hop
    exact ⟨kind, hkind, .inr hl, .inr hr⟩
  · intro p op d s hfetch
    exact .inr (h.unary p op d s hfetch)

end Function

/-! ### Lowering -/

namespace Operation

variable {operation : Operation} {operand dest dest' : OperandId} {st st' : List OperandId}
  {insts : List Inst}

/-- Operations on values come after their assertions, and variables are not loaded. -/
theorem guards_of_emits (h : operation.emits operand dest dest' st = some (insts, st')) :
  (∀ op d l r, .binary op d l r ∈ insts → operation = .binary op ∧
      insts = (op.guards l r).map .guard ++ [.binary op d l r]) ∧
    (∀ op d s, .unary op d s ∈ insts → insts = [.assertion op.demands s, .unary op d s]) ∧
    ∀ x, .forceLoad x ∉ insts
  := by
  cases emits_eq_some.mp h with
  | binary =>
    simp only [List.mem_append, List.mem_map, List.mem_singleton, Inst.guard, reduceCtorEq, and_false,
      exists_false, or_false, not_false_eq_true, implies_true, and_true, false_or, false_implies]
    intro op d l r heq
    cases heq
    exact ⟨rfl, rfl⟩
  | unary =>
    simp only [List.mem_cons, reduceCtorEq, List.not_mem_nil, or_false, false_or, false_implies,
      implies_true, not_false_eq_true, true_and, and_true]
    intro op d s heq
    cases heq
    rfl
  | _ => simp

end Operation

namespace Lowering

variable {f : Bytecode.Function} {g : Function} {s s' : Lowering} {operation : Operation}
  {operand dest dest' : OperandId} {insts : List Inst}

/-- Inline operations that lowering makes are guarded by what they want. -/
theorem mem_guards_of_isInline {op : BinOp} (hop : op = .add ∨ op = .eq ∨ op.demands?.isSome = true)
    (hinline : op.isInline = true) (l r : OperandId) :
  ∃ kind ∈ op.wants, (op.guards l r)[0]? = some (kind, l) ∧ (op.guards l r)[1]? = some (kind, r)
  := by
  cases op <;> simp_all [BinOp.wants, BinOp.guards, BinOp.demands?, BinOp.isInline]

/-- A step keeps what is known of code before any pass has run, and adds no entry load. -/
theorem Emission.fresh (h : Emission s operation s' operand dest dest' insts) (hs : s.Sound)
    (hregular : operation.Regular) (hf : s.func.Fresh) (hload : ∀ p x, s.func.fetch p ≠ some (.forceLoad x)) :
  s'.func.Fresh ∧ ∀ p x, s'.func.fetch p ≠ some (.forceLoad x)
  := by
  obtain ⟨hbinary, hunary, hforce⟩ := Operation.guards_of_emits h.shape
  have hold : ∀ {p i}, s.func.fetch p = some i → s'.func.fetch p = some i :=
    fun hi => h.extend.fetch_old hs.pending_nil hi
  have hnew : ∀ {j i}, insts[j]? = some i → s'.func.fetch (s.func.size + j) = some i :=
    fun hj => h.extend.fetch_new hs.pending_nil hj
  have hcases : ∀ {p i}, s'.func.fetch p = some i → _ :=
    fun hi => h.extend.fetch_cases hs.pending_nil hi
  have hkeep : ∀ {p kind t}, s.func.CheckedBefore p kind t → s'.func.CheckedBefore p kind t :=
    fun ⟨q, hq, ha⟩ => ⟨q, hq, hold ha⟩
  refine ⟨⟨h.extend.known hf.known, ?_, ?_, ?_⟩, ?_⟩
  · intro p i t hi ht
    rcases hcases hi with ⟨-, hi⟩ | ⟨j, -, hj⟩
    · obtain ⟨hlt, htypes, hconst⟩ := hf.defs p i t hi ht
      rw [h.extend.operand_eq t hlt]
      exact ⟨Nat.lt_of_lt_of_le hlt h.extend.size_le, htypes, hconst⟩
    · have hmem := List.mem_of_getElem? hj
      exact ⟨(h.defs_fresh i hmem t ht).2, (h.defs_known i hmem t ht).2⟩
  · intro p op d l r hi hinline
    rcases hcases hi with ⟨-, hi⟩ | ⟨j, rfl, hj⟩
    · obtain ⟨kind, hkind, hl, hr⟩ := hf.binary p op d l r hi hinline
      exact ⟨kind, hkind, hkeep hl, hkeep hr⟩
    · obtain ⟨rfl, hinsts⟩ := hbinary op d l r (List.mem_of_getElem? hj)
      obtain ⟨kind, hkind, hl, hr⟩ := mem_guards_of_isInline hregular hinline l r
      -- The assertions stand before the operation.
      have hguard : ∀ {k : Nat} {t}, (op.guards l r)[k]? = some (kind, t) →
          s'.func.CheckedBefore (s.func.size + j) kind t := by
        intro k t hk
        have hlt := (List.getElem?_eq_some_iff.mp hk).1
        refine ⟨s.func.size + k, Nat.add_lt_add_left ?_ _, hnew ?_⟩
        · by_contra hge
          rw [hinsts, List.getElem?_append_left (by simp; omega), List.getElem?_map,
            Option.map_eq_some_iff] at hj
          obtain ⟨_, -, hg⟩ := hj
          cases hg
        · rw [hinsts, List.getElem?_append_left (by simpa using hlt), List.getElem?_map, hk]
          rfl
      exact ⟨kind, hkind, hguard hl, hguard hr⟩
  · intro p op d v hi
    rcases hcases hi with ⟨-, hi⟩ | ⟨j, rfl, hj⟩
    · exact hkeep (hf.unary p op d v hi)
    · have hinsts := hunary op d v (List.mem_of_getElem? hj)
      rw [hinsts] at hj hnew
      match j, hj with
      | 1, _ => exact ⟨s.func.size + 0, Nat.lt_succ_self _, hnew rfl⟩
  · intro p x hi
    rcases hcases hi with ⟨-, hi⟩ | ⟨j, -, hj⟩
    · exact hload p x hi
    · exact hforce x (List.mem_of_getElem? hj)

/-- No pass has changed lowered code. -/
theorem fresh_lower (h : lower f = .ok g) :
  g.Fresh ∧ ∀ p x, g.fetch p ≠ some (.forceLoad x)
  := by
  obtain ⟨s, hs, rfl, -⟩ := lower_eq_ok h
  refine upTo_induction (P := fun _ s => s.func.Fresh ∧ ∀ p x, s.func.fetch p ≠ some (.forceLoad x))
    ?_ ?_ (Nat.le_refl _) hs
  · have hnone : ∀ p, (start f).func.fetch p = none := fun p => rfl
    refine ⟨⟨(sound_start f).known, ?_, ?_, ?_⟩, ?_⟩ <;> simp [hnone]
  · intro k i s s' operation operand dest dest' insts hP hs _ hi ho hem
    have hk : k ≤ f.instructions.length := Nat.le_of_lt (List.getElem?_eq_some_iff.mp hi).1
    exact hem.fresh (sound_upTo hk hs) (Operation.regular_ofInstruction ho) hP.1 hP.2

end Lowering

end StackCompiler.IR
