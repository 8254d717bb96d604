import StackCompiler.Proofs.Lowering.ControlFlow
import StackCompiler.Proofs.Semantics.Machine

/-!
# Lowering simulates the stack machine

A state of the stack machine and a state of the lowered code are `Related` when both stand
before the same instruction, the temps on the stack of lowering hold the values on the
stack of the machine, and variables hold the locals.  Each instruction of the bytecode is
matched by the instructions that it is lowered to.
-/

namespace StackCompiler.IR

/-! ### What assertions are for -/

/-- The assertions in front of an operation pass just when the operation has a result. -/
theorem BinOp.forall_guards_iff {op : BinOp} (h : op.demands?.isSome = true)
    {lhs rhs : OperandId} {cells : Cells} :
  (∀ p ∈ op.guards lhs rhs, p.1.admits (cells p.2) = true)
    ↔ (op.compute? (cells lhs) (cells rhs)).isSome = true
  := by
  obtain ⟨kind, hkind⟩ := Option.isSome_iff_exists.mp h
  rw [isSome_compute?_iff, accepts_eq_admits hkind]
  unfold guards
  rw [hkind]
  by_cases hdiv : op = .div
  · simp [hdiv, AssertKind.admits, and_assoc]
  · simp [hdiv]

/-- What is asserted in front of a unary operation is that it has a result. -/
theorem UnOp.admits_iff (op : UnOp) (v : Value) :
  op.demands.admits v = true ↔ (op.compute? v).isSome = true
  := by
  cases op <;> cases v <;> simp [demands, AssertKind.admits, compute?]

namespace Lowering

open Bytecode (Instruction Effect)
open Progress

variable {World : Type} {f : Bytecode.Function} {g : Function} {rt : Runtime World}
  {entry : Nat → Value}

/-- The two machines have come equally far. -/
structure Related (f : Bytecode.Function) (g : Function) (b : Bytecode.Config World)
    (c : Config World) : Prop where
  index_le : b.index ≤ f.instructions.length
  point : ∃ s, upTo f b.index = .ok s ∧ c.pos = s.func.size ∧ s.stack.map c.cells = b.stack
  vars : ∀ id n, id < g.operands.size → g.kind id = .var n → c.cells id = b.locals n
  world_eq : c.world = b.world
  trace_eq : c.trace = b.trace

/-- The two machines end alike: with one value, or at one operation. -/
inductive SameOutcome (f : Bytecode.Function) : Outcome World → Outcome World → Prop where
  | returned (v : Value) (w : World) (t : List Request) :
    SameOutcome f (.returned v w t) (.returned v w t)
  | failed {k pos : Nat} (w : World) (t : List Request) (h : Covers f k pos) :
    SameOutcome f (.failed k w t) (.failed pos w t)

/-- What is left of the bytecode. -/
def remaining (f : Bytecode.Function) (b : Bytecode.Config World) : Nat :=
  f.instructions.length - b.index

/-- The next step of the stack machine is matched. -/
abbrev Followed (f : Bytecode.Function) (g : Function) (rt : Runtime World) (entry : Nat → Value)
    (b : Bytecode.Config World) (c : Config World) : Prop :=
  Matched (f.step rt) (g.step rt entry) (Related f g) (SameOutcome f) (remaining f) b c

/-- Two related states before an instruction, with what it is lowered to. -/
structure Site (f : Bytecode.Function) (g : Function) (b : Bytecode.Config World)
    (c : Config World) (i : Instruction) (s s' : Lowering) (operation : Operation)
    (operand dest dest' : OperandId) (insts : List Inst) : Prop where
  lowered : lower f = .ok g
  related : Related f g b c
  instr : f.instructions[b.index]? = some i
  before : upTo f b.index = .ok s
  after : upTo f (b.index + 1) = .ok s'
  decoded : Operation.ofInstruction f b.index i = .ok operation
  emission : Emission s operation s' operand dest dest' insts
  pos_eq : c.pos = s.func.size
  stack_eq : s.stack.map c.cells = b.stack

/-- Before an instruction of the bytecode, two related states have a site: what lowering did with
the instruction is known. -/
theorem exists_site (h : lower f = .ok g) {b : Bytecode.Config World} {c : Config World}
    (hr : Related f g b c) {i : Instruction} (hi : f.instructions[b.index]? = some i) :
  ∃ s s' operation operand dest dest' insts,
    Site f g b c i s s' operation operand dest dest' insts
  := by
  obtain ⟨s, s', operation, operand, dest, dest', insts, hs, hs', ho, hem⟩ := exists_emission h hi
  obtain ⟨s₁, hs₁, hpos, hstack⟩ := hr.point
  rw [hs] at hs₁
  cases hs₁
  exact ⟨s, s', operation, operand, dest, dest', insts, h, hr, hi, hs, hs', ho, hem, hpos, hstack⟩

namespace Site

variable {b : Bytecode.Config World} {c : Config World} {i : Instruction} {s s' : Lowering}
  {operation : Operation} {operand dest dest' v t : OperandId} {insts : List Inst} {inst : Inst}
  {rest : List OperandId}

section

variable (site : Site f g b c i s s' operation operand dest dest' insts)

include site

/-! ### Where the machines stand -/

theorem index_lt :
  b.index < f.instructions.length
  := (List.getElem?_eq_some_iff.mp site.instr).1

/-- At a site the stack machine performs the effect of the operation that the instruction was
decoded to. -/
theorem step_bytecode :
  f.step rt b = f.perform rt b (operation.effect rt b.locals b.stack)
  := by
  unfold Bytecode.Function.step
  rw [site.instr]
  change f.perform rt b (i.effect f rt b.locals b.stack) = _
  rw [Operation.effect_ofInstruction rt b.locals site.decoded]

theorem size_after :
  s'.func.size = c.pos + insts.length
  := by
  rw [site.emission.extend.size_eq, site.pos_eq]

/-- While it is among the instructions emitted at a site, the lowered code performs their actions
one by one. -/
theorem step_lowered {d : Config World} {j : Nat} (hj : insts[j]? = some inst) (hd : d.pos = c.pos + j) :
  g.step rt entry d = g.perform rt entry d (inst.action g rt (g.read rt d))
  := by
  have hfetch := fetch_emission site.lowered site.index_lt site.after site.emission hj
  rw [← site.pos_eq, ← hd] at hfetch
  exact Function.step_of_fetch (Function.lt_size_of_fetch hfetch) hfetch

/-- The positions of the instructions emitted at a site are covered by its bytecode instruction.
-/
theorem covers {pos : Nat} (hle : c.pos ≤ pos) (hlt : pos < c.pos + insts.length) :
  Covers f b.index pos
  := by
  refine ⟨s, s', site.before, site.after, ?_, ?_⟩
  · rw [← site.pos_eq]
    exact hle
  · rw [site.size_after]
    exact hlt

theorem kind_after {id : OperandId} (hid : id < s'.func.operands.size) :
  id < g.operands.size ∧ g.kind id = s'.func.kind id
  := by
  obtain ⟨rest, he⟩ := extends_lower site.lowered (Nat.succ_le_of_lt site.index_lt) site.after
  exact ⟨Nat.lt_of_lt_of_le hid he.size_le, he.kind_eq hid⟩

/-- The operand of an operation is what the operation says. -/
theorem kind_operand {kind : OperandKind} (hkind : operation.operandKind? = some kind) :
  operand < g.operands.size ∧ g.kind operand = kind
  := by
  obtain ⟨hlt, hk⟩ := site.emission.operand_kind kind hkind
  obtain ⟨hlt', hk'⟩ := site.kind_after hlt
  exact ⟨hlt', hk'.trans hk⟩

/-- The stack of lowering holds temps. -/
theorem isTemp_of_mem (ht : t ∈ s.stack) :
  t < s.func.operands.size ∧ g.isTemp t = true
  := by
  obtain ⟨hlt, htemp⟩ := (sound_upTo site.related.index_le site.before).stack_temp t ht
  obtain ⟨rest, he⟩ := extends_lower site.lowered site.related.index_le site.before
  rw [Function.isTemp_congr (he.kind_eq hlt)]
  exact ⟨hlt, htemp⟩

/-- Reading a temp of the stack of lowering gives the contents of its cell. -/
theorem read_stack (ht : t ∈ s.stack) (d : Config World) :
  g.read rt d t = d.cells t
  := Function.read_temp (site.isTemp_of_mem ht).2

/-- What an operation defines is a temp that is not on the stack. -/
theorem fresh (hinst : inst ∈ insts) (ht : t ∈ inst.defs) :
  t ∉ s.stack ∧ ∀ n, g.kind t ≠ .var n
  := by
  obtain ⟨hle, hlt⟩ := site.emission.defs_fresh inst hinst t ht
  obtain ⟨htemp, -⟩ := site.emission.defs_known inst hinst t ht
  constructor
  · intro hmem
    exact Nat.not_lt_of_le hle (site.isTemp_of_mem hmem).1
  · intro n hn
    rw [(site.kind_after hlt).2] at hn
    obtain ⟨m, hm⟩ := Function.isTemp_iff.mp htemp
    rw [hm] at hn
    cases hn

/-- The states are related after the instruction. -/
theorem related_after {b' : Bytecode.Config World} {c' : Config World} (hindex : b'.index = b.index + 1)
    (hpos : c'.pos = c.pos + insts.length) (hstack : s'.stack.map c'.cells = b'.stack)
    (hvars : ∀ id n, id < g.operands.size → g.kind id = .var n → c'.cells id = b'.locals n)
    (hworld : c'.world = b'.world) (htrace : c'.trace = b'.trace) :
  Related f g b' c'
  := by
  refine ⟨?_, ⟨s', ?_, ?_, hstack⟩, hvars, hworld, htrace⟩
  · rw [hindex]
    exact Nat.succ_le_of_lt site.index_lt
  · rw [hindex]
    exact site.after
  · rw [site.size_after, hpos]

/-- Variables keep their values when a temp is filled. -/
theorem vars_put (ht : ∀ n, g.kind t ≠ .var n) (v : Value) :
  ∀ id n, id < g.operands.size → g.kind id = .var n → c.cells.put t v id = b.locals n
  := by
  intro id n hid hkind
  have hne : id ≠ t := by
    rintro rfl
    exact ht n hkind
  rw [Cells.put_of_ne _ _ hne]
  exact site.related.vars id n hid hkind

/-! ### Requests

An operation that asks the runtime is lowered to an instruction that makes the same
request.  Its answer is dropped, goes to the new temp, or gets there by way of the return
location. -/

/-- A failing step of the stack machine is matched by a run that fails at one of the instructions
emitted for it. -/
theorem followed_of_failed {n pos : Nat} (hb : f.step rt b = .ended (.failed b.index b.world b.trace))
    (hc : run (g.step rt entry) n c = .ended (.failed pos c.world c.trace)) (hle : c.pos ≤ pos)
    (hlt : pos < c.pos + insts.length) :
  Followed f g rt entry b c
  := by
  right
  refine ⟨_, n, _, hb, hc, ?_⟩
  rw [site.related.world_eq, site.related.trace_eq]
  exact .failed _ _ (site.covers hle hlt)

/-- A step of the stack machine to the next instruction is matched by a run to a related state. -/
theorem followed_of_running {b' : Bytecode.Config World} {n : Nat} {c' : Config World}
    (hb : f.step rt b = .running b') (hc : run (g.step rt entry) n c = .running c')
    (hr : Related f g b' c') (hindex : b'.index = b.index + 1) :
  Followed f g rt entry b c
  := by
  left
  refine ⟨b', n, c', hb, hc, hr, ?_⟩
  intro _
  have := site.index_lt
  unfold remaining
  omega

/-- A request whose answer is dropped is matched by one instruction that makes the same request.
-/
theorem followed_send (request : Request) (hinsts : insts = [inst])
    (haction : inst.action g rt (g.read rt c) = .ask request .nowhere)
    (heffect : operation.effect rt b.locals b.stack = .send request (s'.stack.map c.cells)) :
  Followed f g rt entry b c
  := by
  subst hinsts
  have hb : f.step rt b = f.perform rt b (.send request (s'.stack.map c.cells)) := by
    rw [site.step_bytecode, heffect]
  have hc : g.step rt entry c = g.perform rt entry c (.ask request .nowhere) := by
    rw [site.step_lowered (j := 0) rfl rfl, haction]
  simp only [Bytecode.Function.perform] at hb
  simp only [Function.perform, site.related.world_eq] at hc
  cases hserve : rt.serve request b.world with
  | none =>
    rw [hserve] at hb hc
    rw [← site.related.world_eq] at hc
    exact site.followed_of_failed hb ((run_one c).trans hc) (Nat.le_refl _) (Nat.lt_succ_self _)
  | some answer =>
    rw [hserve] at hb hc
    refine site.followed_of_running hb ((run_one c).trans hc) ?_ rfl
    exact site.related_after rfl rfl rfl site.related.vars rfl
      (congrArg (· ++ [request]) site.related.trace_eq)

/-- A request whose answer is pushed is matched by one instruction that fills the new temp with
it. -/
theorem followed_load (request : Request) (hinsts : insts = [inst])
    (haction : inst.action g rt (g.read rt c) = .ask request (.operand dest)) (hdef : dest ∈ inst.defs)
    (hstack : s'.stack = dest :: rest) (hrest : rest ⊆ s.stack)
    (heffect : operation.effect rt b.locals b.stack = .load request (rest.map c.cells)) :
  Followed f g rt entry b c
  := by
  subst hinsts
  obtain ⟨hfresh, htemp⟩ := site.fresh (List.mem_singleton.mpr rfl) hdef
  have hb : f.step rt b = f.perform rt b (.load request (rest.map c.cells)) := by
    rw [site.step_bytecode, heffect]
  have hc : g.step rt entry c = g.perform rt entry c (.ask request (.operand dest)) := by
    rw [site.step_lowered (j := 0) rfl rfl, haction]
  simp only [Bytecode.Function.perform] at hb
  simp only [Function.perform, site.related.world_eq] at hc
  cases hserve : rt.serve request b.world with
  | none =>
    rw [hserve] at hb hc
    rw [← site.related.world_eq] at hc
    exact site.followed_of_failed hb ((run_one c).trans hc) (Nat.le_refl _) (Nat.lt_succ_self _)
  | some answer =>
    rw [hserve] at hb hc
    refine site.followed_of_running hb ((run_one c).trans hc) ?_ rfl
    refine site.related_after rfl rfl ?_ (site.vars_put htemp _) rfl
      (congrArg (· ++ [request]) site.related.trace_eq)
    rw [hstack]
    exact Cells.map_put_cons (fun ht => hfresh (hrest ht))

/-- A request whose answer comes by way of the return location is matched by the instruction that
makes it and the assignment of the result to the new temp. -/
theorem followed_answer (request : Request) (hinsts : insts = [inst, .assign dest operand])
    (hkind : operation.operandKind? = some .retval)
    (haction : inst.action g rt (g.read rt c) = .ask request .result) (hstack : s'.stack = dest :: rest)
    (hrest : rest ⊆ s.stack)
    (heffect : operation.effect rt b.locals b.stack = .load request (rest.map c.cells)) :
  Followed f g rt entry b c
  := by
  subst hinsts
  obtain ⟨hfresh, htemp⟩ := site.fresh (List.mem_cons_of_mem _ (List.mem_singleton.mpr rfl))
    (t := dest) (by simp [Inst.defs])
  have hret := (site.kind_operand hkind).2
  have hb : f.step rt b = f.perform rt b (.load request (rest.map c.cells)) := by
    rw [site.step_bytecode, heffect]
  have hc : g.step rt entry c = g.perform rt entry c (.ask request .result) := by
    rw [site.step_lowered (j := 0) rfl rfl, haction]
  simp only [Bytecode.Function.perform] at hb
  simp only [Function.perform, site.related.world_eq] at hc
  cases hserve : rt.serve request b.world with
  | none =>
    rw [hserve] at hb hc
    rw [← site.related.world_eq] at hc
    exact site.followed_of_failed hb ((run_one c).trans hc) (Nat.le_refl _)
      (Nat.lt_add_of_pos_right (Nat.succ_pos _))
  | some answer =>
    rw [hserve] at hb hc
    -- The second step moves the answer from the return location to the temp.
    have hmove : g.step rt entry { c with
        pos := c.pos + 1
        result := answer.1
        world := answer.2
        trace := c.trace ++ [request] } = _ := site.step_lowered (j := 1) rfl rfl
    simp only [Inst.action, Function.read, hret, Function.perform] at hmove
    have hrun := (run_succ_of_running hc 1).trans ((run_one _).trans hmove)
    refine site.followed_of_running hb hrun ?_ rfl
    refine site.related_after rfl rfl ?_ (site.vars_put htemp _) rfl
      (congrArg (· ++ [request]) site.related.trace_eq)
    rw [hstack]
    exact Cells.map_put_cons (fun ht => hfresh (hrest ht))

/-! ### Plain steps -/

/-- A step that pushes a value is matched by one instruction that fills the new temp with it. -/
theorem followed_fill (v : Value) (hinsts : insts = [inst])
    (haction : inst.action g rt (g.read rt c) = .fill [(dest, v)]) (hdef : dest ∈ inst.defs)
    (hstack : s'.stack = dest :: rest) (hrest : rest ⊆ s.stack)
    (heffect : operation.effect rt b.locals b.stack = .next (v :: rest.map c.cells)) :
  Followed f g rt entry b c
  := by
  subst hinsts
  obtain ⟨hfresh, htemp⟩ := site.fresh (List.mem_singleton.mpr rfl) hdef
  have hb : f.step rt b = f.perform rt b (.next (v :: rest.map c.cells)) := by
    rw [site.step_bytecode, heffect]
  have hc : g.step rt entry c = g.perform rt entry c (.fill [(dest, v)]) := by
    rw [site.step_lowered (j := 0) rfl rfl, haction]
  refine site.followed_of_running hb ((run_one c).trans hc) ?_ rfl
  refine site.related_after rfl rfl ?_ (site.vars_put htemp _) site.related.world_eq
    site.related.trace_eq
  rw [hstack]
  exact Cells.map_put_cons (fun ht => hfresh (hrest ht))

/-- An operation that moves values on the stack only, if anything. -/
theorem followed_shuffle (hinsts : insts = [] ∨ ∃ l, insts = [.label l])
    (heffect : operation.effect rt b.locals b.stack = .next (s'.stack.map c.cells)) :
  Followed f g rt entry b c
  := by
  have hb : f.step rt b = f.perform rt b (.next (s'.stack.map c.cells)) := by
    rw [site.step_bytecode, heffect]
  rcases hinsts with rfl | ⟨l, rfl⟩
  · refine site.followed_of_running (n := 0) hb rfl ?_ rfl
    exact site.related_after rfl rfl rfl site.related.vars site.related.world_eq
      site.related.trace_eq
  · have hc : g.step rt entry c = g.perform rt entry c (.fill []) :=
      site.step_lowered (j := 0) rfl rfl
    refine site.followed_of_running hb ((run_one c).trans hc) ?_ rfl
    exact site.related_after rfl rfl rfl site.related.vars site.related.world_eq
      site.related.trace_eq

end

/-- Duplicating the top of the stack is matched by a fork into two new temps. -/
theorem followed_dup (site : Site f g b c i s s' .dup operand dest dest' [.fork v dest dest'])
    (hstack : s.stack = v :: rest) (hstack' : s'.stack = dest' :: dest :: rest) :
  Followed f g rt entry b c
  := by
  obtain ⟨hfresh, htemp⟩ := site.fresh (List.mem_singleton.mpr rfl) (t := dest) (by simp [Inst.defs])
  obtain ⟨hfresh', htemp'⟩ := site.fresh (List.mem_singleton.mpr rfl) (t := dest')
    (by simp [Inst.defs])
  have hb : f.step rt b
      = f.perform rt b (.next (c.cells v :: c.cells v :: rest.map c.cells)) := by
    rw [site.step_bytecode, ← site.stack_eq, hstack]
    rfl
  have hc : g.step rt entry c
      = g.perform rt entry c (.fill [(dest, c.cells v), (dest', c.cells v)]) := by
    rw [site.step_lowered (j := 0) rfl rfl]
    simp only [Inst.action]
    rw [site.read_stack (by rw [hstack]; exact List.mem_cons_self)]
  refine site.followed_of_running hb ((run_one c).trans hc) ?_ rfl
  refine site.related_after rfl rfl ?_ ?_ site.related.world_eq site.related.trace_eq
  · have hrest : rest ⊆ s.stack := by
      rw [hstack]
      exact List.subset_cons_self ..
    have hne : dest' ∉ dest :: rest := by
      intro hmem
      rcases List.mem_cons.mp hmem with h | h
      · exact site.emission.dest_ne h.symm
      · exact hfresh' (hrest h)
    rw [hstack']
    refine (Cells.map_put_cons hne).trans ?_
    rw [Cells.map_put_cons (fun ht => hfresh (hrest ht))]
  · intro id n hid hkind
    have hne : id ≠ dest' := by
      rintro rfl
      exact htemp' n hkind
    change (c.cells.put dest (c.cells v)).put dest' (c.cells v) id = b.locals n
    rw [Cells.put_of_ne _ _ hne]
    exact site.vars_put htemp _ id n hid hkind

/-- A store to a variable is followed: one store of the popped operand fills the cell of the
variable. -/
theorem followed_assign {n : Nat}
    (site : Site f g b c i s s' (.store (.var n)) operand dest dest' [.store operand v])
    (hstack : s.stack = v :: rest) (hstack' : s'.stack = rest) :
  Followed f g rt entry b c
  := by
  obtain ⟨hlt, hvar⟩ := site.kind_operand rfl
  have hv : v ∈ s.stack := by
    rw [hstack]
    exact List.mem_cons_self
  have hb : f.step rt b = f.perform rt b (.assign n (c.cells v) (rest.map c.cells)) := by
    rw [site.step_bytecode, ← site.stack_eq, hstack]
    rfl
  have hc : g.step rt entry c = g.perform rt entry c (.fill [(operand, c.cells v)]) := by
    rw [site.step_lowered (j := 0) rfl rfl]
    simp only [Inst.action, hvar]
    rw [site.read_stack hv]
  refine site.followed_of_running hb ((run_one c).trans hc) ?_ rfl
  refine site.related_after rfl rfl ?_ ?_ site.related.world_eq site.related.trace_eq
  · rw [hstack']
    apply List.map_congr_left
    intro t ht
    apply Cells.put_of_ne
    rintro rfl
    obtain ⟨m, hm⟩ := Function.isTemp_iff.mp
      (site.isTemp_of_mem (by rw [hstack]; exact List.mem_cons_of_mem _ ht)).2
    rw [hvar] at hm
    cases hm
  · -- No two operands stand for one variable.
    intro id m hid hkind
    change c.cells.put operand (c.cells v) id = if m = n then c.cells v else b.locals m
    by_cases hm : m = n
    · subst hm
      have heq := (sound_lower site.lowered).2.2.1.var_inj id operand m hid hlt hkind hvar
      rw [heq, Cells.put_self, if_pos rfl]
    · have hne : id ≠ operand := by
        rintro rfl
        rw [hvar] at hkind
        cases hkind
        exact hm rfl
      rw [Cells.put_of_ne _ _ hne, if_neg hm]
      exact site.related.vars id m hid hkind

/-- A return is matched by a return of the same value. -/
theorem followed_ret (site : Site f g b c i s s' .ret operand dest dest' [.ret v])
    (hstack : s.stack = v :: rest) :
  Followed f g rt entry b c
  := by
  right
  have hv : v ∈ s.stack := by
    rw [hstack]
    exact List.mem_cons_self
  have hb : f.step rt b = .ended (.returned (c.cells v) b.world b.trace) := by
    rw [site.step_bytecode, ← site.stack_eq, hstack]
    rfl
  have hc : g.step rt entry c = .ended (.returned (c.cells v) c.world c.trace) := by
    rw [site.step_lowered (j := 0) rfl rfl]
    simp only [Inst.action, site.read_stack hv]
    rfl
  refine ⟨_, 1, _, hb, (run_one c).trans hc, ?_⟩
  rw [site.related.world_eq, site.related.trace_eq]
  exact .returned ..

/-! ### Assertions -/

/-- The assertions in front of an operation are passed, or the first that is not ends the
run.  The induction is on the assertions left; `j` of them were passed before. -/
theorem run_guards (site : Site f g b c i s s' operation operand dest dest' insts)
    (rt : Runtime World) (entry : Nat → Value) {guards : List (AssertKind × OperandId)} {j : Nat}
    (hguards : ∀ k p, guards[k]? = some p → insts[j + k]? = some (.assertion p.1 p.2))
    (hstack : ∀ p ∈ guards, p.2 ∈ s.stack) :
  let d := { c with pos := c.pos + j }
  (∀ p ∈ guards, p.1.admits (c.cells p.2) = true) ∧
    run (g.step rt entry) guards.length d = .running { d with pos := d.pos + guards.length } ∨
  (∃ p ∈ guards, p.1.admits (c.cells p.2) = false) ∧
    ∃ n k, k < guards.length ∧
      run (g.step rt entry) n d = .ended (.failed (d.pos + k) c.world c.trace)
  := by
  intro d
  induction guards generalizing j with
  | nil =>
    left
    simp [run]
  | cons p guards ih =>
    have hstep : g.step rt entry d
        = g.perform rt entry d (if p.1.admits (c.cells p.2) then .fill [] else .fail) := by
      rw [site.step_lowered (hguards 0 p rfl) rfl]
      simp only [Inst.action]
      rw [site.read_stack (hstack p List.mem_cons_self)]
    cases hp : p.1.admits (c.cells p.2) with
    | false =>
      right
      rw [hp] at hstep
      exact ⟨⟨p, List.mem_cons_self, hp⟩, 1, 0, Nat.succ_pos _, (run_one d).trans hstep⟩
    | true =>
      rw [hp] at hstep
      have hrest := ih (j := j + 1)
        (fun k q hk => by
          rw [Nat.add_right_comm]
          exact hguards (k + 1) q hk)
        (fun q hq => hstack q (List.mem_cons_of_mem _ hq))
      rcases hrest with ⟨hall, hrun⟩ | ⟨⟨q, hq, hfalse⟩, n, k, hk, hrun⟩
      · left
        constructor
        · intro q hq
          rcases List.mem_cons.mp hq with rfl | hq
          · exact hp
          · exact hall q hq
        · refine (run_succ_of_running hstep _).trans (hrun.trans ?_)
          simp only [d, List.length_cons]
          congr 2
          omega
      · right
        refine ⟨⟨q, List.mem_cons_of_mem _ hq, hfalse⟩, n + 1, k + 1, Nat.succ_lt_succ hk, ?_⟩
        refine (run_succ_of_running hstep _).trans (hrun.trans ?_)
        simp only [d]
        congr 2
        omega

/-- An operation behind assertions: it comes to a value exactly when they all pass. -/
theorem followed_guarded (site : Site f g b c i s s' operation operand dest dest' insts)
    (guards : List (AssertKind × OperandId)) {result : Option Value}
    (heffect : operation.effect rt b.locals b.stack = match result with | some v => .next (v :: rest.map c.cells) | none => .fault)
    (hinsts : insts = guards.map .guard ++ [inst]) (hguards : ∀ p ∈ guards, p.2 ∈ s.stack)
    (hpass : (∀ p ∈ guards, p.1.admits (c.cells p.2) = true) ↔ result.isSome = true)
    (haction : ∀ v, result = some v → ∀ pos, inst.action g rt (g.read rt { c with pos }) = .fill [(dest, v)])
    (hdef : dest ∈ inst.defs) (hstack : s'.stack = dest :: rest) (hrest : rest ⊆ s.stack) :
  Followed f g rt entry b c
  := by
  have hfetch : ∀ k p, guards[k]? = some p → insts[0 + k]? = some (.assertion p.1 p.2) := by
    intro k p hk
    have hlt := (List.getElem?_eq_some_iff.mp hk).1
    rw [hinsts, Nat.zero_add, List.getElem?_append_left (by simpa using hlt), List.getElem?_map, hk]
    rfl
  have hlast : insts[guards.length]? = some inst := by
    rw [hinsts, List.getElem?_append_right (by simp)]
    simp
  have hlength : insts.length = guards.length + 1 := by
    rw [hinsts]
    simp
  have hb : f.step rt b = _ := site.step_bytecode
  rw [heffect] at hb
  rcases site.run_guards rt entry hfetch hguards with
    ⟨hall, hrun⟩ | ⟨⟨p, hp, hfalse⟩, n, k, hk, hrun⟩
  · obtain ⟨v, rfl⟩ := Option.isSome_iff_exists.mp (hpass.mp hall)
    have hlaststep : g.step rt entry { c with pos := c.pos + guards.length } = _ :=
      site.step_lowered hlast rfl
    rw [haction v rfl] at hlaststep
    obtain ⟨hfresh, htemp⟩ := site.fresh (List.mem_of_getElem? hlast) hdef
    refine site.followed_of_running hb ((run_succ_eq hrun).trans hlaststep) ?_ rfl
    refine site.related_after rfl ?_ ?_ (site.vars_put htemp _) site.related.world_eq
      site.related.trace_eq
    · rw [hlength]
      rfl
    · rw [hstack]
      exact Cells.map_put_cons (fun ht => hfresh (hrest ht))
  · have hnone : result = none := by
      rw [Option.eq_none_iff_forall_ne_some]
      intro v hv
      have := hpass.mpr (by rw [hv]; rfl) p hp
      rw [hfalse] at this
      cases this
    rw [hnone] at hb
    exact site.followed_of_failed hb hrun (Nat.le_add_right _ _) (by
      rw [hlength]
      change c.pos + 0 + k < _
      omega)

/-- A binary operation is matched by its assertions, which fail exactly if it has no result, and
the operation itself. -/
theorem followed_binary {op : BinOp} {lhs rhs : OperandId}
    (site : Site f g b c i s s' (.binary op) operand dest dest' ((op.guards lhs rhs).map .guard ++ [.binary op dest lhs rhs]))
    (hop : op.demands?.isSome = true) (hstack : s.stack = rhs :: lhs :: rest)
    (hstack' : s'.stack = dest :: rest) :
  Followed f g rt entry b c
  := by
  have hl : lhs ∈ s.stack := by simp [hstack]
  have hr : rhs ∈ s.stack := by simp [hstack]
  have heffect : Operation.effect rt b.locals (.binary op) b.stack
      = match op.compute? (c.cells lhs) (c.cells rhs) with
        | some v => .next (v :: rest.map c.cells)
        | none => .fault := by
    rw [← site.stack_eq, hstack]
    cases op <;> first | rfl | cases hop
  have haction : ∀ v, op.compute? (c.cells lhs) (c.cells rhs) = some v → ∀ pos,
      (Inst.binary op dest lhs rhs).action g rt (g.read rt { c with pos }) = .fill [(dest, v)] := by
    intro v hv pos
    rw [Inst.action_binary (by rintro rfl; cases hop) (by rintro rfl; cases hop),
      site.read_stack hl, site.read_stack hr, BinOp.perform_of_compute? rt hv]
    rfl
  refine site.followed_guarded _ heffect rfl ?_ (BinOp.forall_guards_iff hop) haction
    (by simp [Inst.defs]) hstack' (by simp [hstack])
  intro p hp
  rcases BinOp.mem_guards hp with h | h <;> rw [h]
  · exact hl
  · exact hr

/-- A unary operation is matched by its assertion, which fails exactly if it has no result, and
the operation itself. -/
theorem followed_unary {op : UnOp}
    (site : Site f g b c i s s' (.unary op) operand dest dest' [.assertion op.demands v, .unary op dest v])
    (hstack : s.stack = v :: rest) (hstack' : s'.stack = dest :: rest) :
  Followed f g rt entry b c
  := by
  have hv : v ∈ s.stack := by simp [hstack]
  have heffect : Operation.effect rt b.locals (.unary op) b.stack
      = match op.compute? (c.cells v) with
        | some x => .next (x :: rest.map c.cells)
        | none => .fault := by
    rw [← site.stack_eq, hstack]
    rfl
  have haction : ∀ x, op.compute? (c.cells v) = some x → ∀ pos,
      (Inst.unary op dest v).action g rt (g.read rt { c with pos }) = .fill [(dest, x)] := by
    intro x hx pos
    simp only [Inst.action, site.read_stack hv, UnOp.perform_of_compute? rt hx, Action.fillWith]
  refine site.followed_guarded [(op.demands, v)] heffect rfl ?_ ?_ haction
    (by simp [Inst.defs]) hstack' (by simp [hstack])
  · simpa using hv
  · simpa using UnOp.admits_iff op (c.cells v)

/-! ### Jumps -/

/-- A jump takes both machines to the label. -/
theorem exists_jump (site : Site f g b c i s s' operation operand dest dest' insts) (he : f.EmptyAtJumps)
    {j : Nat} (hj : insts[j]? = some inst) {l : Label} (hl : inst.target? = some l) :
  ∃ t q, f.labelIndex l = some t ∧ g.labels.at? l = some q ∧
    Related f g { b with index := t, stack := [] } { c with pos := q }
  := by
  have hfetch := fetch_emission site.lowered site.index_lt site.after site.emission hj
  obtain ⟨-, -, -, htargets⟩ := lower_eq_ok site.lowered
  obtain ⟨q, hq⟩ := htargets _ inst l hfetch hl
  obtain ⟨t, r, ht, hle, hr, hsize, hempty⟩ := exists_target site.lowered he hq
  refine ⟨t, q, ht, hq, hle, ⟨r, hr, hsize.symm, ?_⟩, site.related.vars, site.related.world_eq,
    site.related.trace_eq⟩
  rw [hempty]
  rfl

/-- A jump is matched by a jump to the same label, if stacks are empty at jumps. -/
theorem followed_goto {l : Label}
    (site : Site f g b c i s s' (.goto l) operand dest dest' [.jump l]) (he : f.EmptyAtJumps) :
  Followed f g rt entry b c
  := by
  have hempty := length_stack_of_mark he site.instr site.before site.decoded rfl rfl
  obtain ⟨t, q, ht, hq, hrel⟩ := site.exists_jump he (j := 0) rfl rfl
  have hb : f.step rt b = .running { b with index := t, stack := [] } := by
    rw [site.step_bytecode, ← site.stack_eq, List.length_eq_zero_iff.mp hempty]
    simp only [Operation.effect, Bytecode.Function.perform, ht, List.map_nil]
  have hc : g.step rt entry c = .running { c with pos := q } := by
    rw [site.step_lowered (j := 0) rfl rfl]
    simp only [Inst.action, Function.perform, hq]
  left
  exact ⟨_, 1, _, hb, (run_one c).trans hc, hrel, fun h => by cases h⟩

/-- A conditional jump is matched by the assertion that its condition is a truth value and a jump
on it. -/
theorem followed_branch {l : Label} {cond : OperandId}
    (site : Site f g b c i s s' (.branch l) operand dest dest' [.assertion .bool cond, .condJump cond l])
    (he : f.EmptyAtJumps) (hstack : s.stack = cond :: rest) (hstack' : s'.stack = rest) :
  Followed f g rt entry b c
  := by
  have hone := length_stack_of_mark he site.instr site.before site.decoded rfl rfl
  obtain rfl : rest = [] := by simpa [hstack] using hone
  have hcond : cond ∈ s.stack := by simp [hstack]
  have hb : f.step rt b = f.perform rt b (Operation.effect rt b.locals (.branch l) [c.cells cond]) := by
    rw [site.step_bytecode, ← site.stack_eq, hstack]
    rfl
  have hc : g.step rt entry c = _ := site.step_lowered (j := 0) rfl rfl
  simp only [Inst.action, site.read_stack hcond] at hc
  have hc' : g.step rt entry { c with pos := c.pos + 1 } = _ := site.step_lowered (j := 1) rfl rfl
  simp only [Inst.action, site.read_stack hcond] at hc'
  cases hv : c.cells cond with
  | bool x =>
    rw [hv] at hb hc hc'
    cases x with
    | true =>
      obtain ⟨t, q, ht, hq, hrel⟩ := site.exists_jump he (j := 1) rfl rfl
      simp only [Operation.effect, Bytecode.Function.perform, ht, if_pos] at hb
      simp only [Function.perform, hq, if_pos] at hc'
      left
      refine ⟨_, 2, _, hb, (run_succ_of_running hc 1).trans ((run_one _).trans hc'), hrel, ?_⟩
      intro h
      cases h
    | false =>
      refine site.followed_of_running hb ((run_succ_of_running hc 1).trans ((run_one _).trans hc'))
        ?_ rfl
      exact site.related_after rfl rfl (by rw [hstack']; rfl) site.related.vars
        site.related.world_eq site.related.trace_eq
  | int _ | none | string _ | object _ =>
    rw [hv] at hb hc
    exact site.followed_of_failed hb ((run_one c).trans hc) (Nat.le_refl _)
      (Nat.lt_add_of_pos_right (Nat.succ_pos _))

/-! ### Every operation -/

/-- Loading a place is matched by its assignment to the new temp. -/
theorem followed_source {source : OperandKind}
    (site : Site f g b c i s s' (.load source) operand dest dest' [.assign dest operand])
    (hstack' : s'.stack = dest :: s.stack) :
  Followed f g rt entry b c
  := by
  obtain ⟨hlt, hkind⟩ := site.kind_operand rfl
  have hregular := Operation.regular_ofInstruction site.decoded
  have hdef : dest ∈ (Inst.assign dest operand).defs := List.mem_singleton.mpr rfl
  have hrest : s.stack ⊆ s.stack := List.Subset.refl _
  -- On either side the place that is read is the one the operation names.
  have hnext : ∀ v, Operation.effect rt b.locals (.load source) (s.stack.map c.cells)
        = .next (v :: s.stack.map c.cells) →
      (Inst.assign dest operand).action g rt (g.read rt c) = .fill [(dest, v)] →
      Followed f g rt entry b c := by
    intro v heffect haction
    exact site.followed_fill v rfl haction hdef hstack' hrest (site.stack_eq ▸ heffect)
  have hload : ∀ q, Operation.effect rt b.locals (.load source) (s.stack.map c.cells)
        = .load q (s.stack.map c.cells) →
      (Inst.assign dest operand).action g rt (g.read rt c) = .ask q (.operand dest) →
      Followed f g rt entry b c := by
    intro q heffect haction
    exact site.followed_load q rfl haction hdef hstack' hrest (site.stack_eq ▸ heffect)
  cases source with
  | temp n | retval => cases hregular
  | var n =>
    apply hnext _ rfl
    simp only [Inst.action, Function.read, hkind]
    rw [site.related.vars operand n hlt hkind]
  | const k | cell n =>
    apply hnext _ rfl
    simp only [Inst.action, Function.read, hkind]
  | global n | function n | contents n =>
    apply hload _ rfl
    simp only [Inst.action, hkind]

/-- Storing to a place is matched by a store of the temp on top of the stack. -/
theorem followed_store {dst : OperandKind}
    (site : Site f g b c i s s' (.store dst) operand dest dest' [.store operand v])
    (hstack : s.stack = v :: rest) (hstack' : s'.stack = rest) :
  Followed f g rt entry b c
  := by
  obtain ⟨hlt, hkind⟩ := site.kind_operand rfl
  have hregular := Operation.regular_ofInstruction site.decoded
  have hv : v ∈ s.stack := by simp [hstack]
  have hsend : ∀ q, Operation.effect rt b.locals (.store dst) (s.stack.map c.cells)
        = .send q (s'.stack.map c.cells) →
      (Inst.store operand v).action g rt (g.read rt c) = .ask q .nowhere →
      Followed f g rt entry b c := by
    intro q heffect haction
    exact site.followed_send q rfl haction (site.stack_eq ▸ heffect)
  rw [hstack, hstack'] at hsend
  cases dst with
  | var n => exact site.followed_assign hstack hstack'
  | global n | contents n =>
    apply hsend _ rfl
    simp only [Inst.action, hkind, site.read_stack hv]
  | temp n | retval | const k | cell n | function n => cases hregular

/-- Reading temps of the stack of lowering gives the contents of their cells. -/
theorem read_map (site : Site f g b c i s s' operation operand dest dest' insts)
    {ts : List OperandId} (hts : ts ⊆ s.stack) :
  ts.map (g.read rt c) = ts.map c.cells
  := by
  apply List.map_congr_left
  intro t ht
  exact site.read_stack (hts ht) c

/-- A closure takes what it captures from the stack. -/
theorem followed_allocClosure {n : Nat} {function : OperandId}
    (site : Site f g b c i s s' (.allocClosure n) operand dest dest' [.allocClosure function (rest.take n), .assign dest operand])
    (hstack : s.stack = function :: rest) (hstack' : s'.stack = dest :: rest.drop n)
    (hn : n ≤ rest.length) :
  Followed f g rt entry b c
  := by
  have hrest : rest ⊆ s.stack := by simp [hstack]
  have hfunction : function ∈ s.stack := by simp [hstack]
  refine site.followed_answer (.allocClosure (c.cells function) ((rest.take n).map c.cells))
    rfl rfl ?_ hstack' (List.Subset.trans (List.drop_subset n rest) hrest) ?_
  · simp only [Inst.action, site.read_map (List.Subset.trans (List.take_subset n rest) hrest),
      site.read_stack hfunction]
  · rw [← site.stack_eq, hstack]
    simp [Operation.effect, hn, List.map_take, List.map_drop]

/-- A call takes its arguments from the stack, the last one first. -/
theorem followed_call {n : Nat} {closure : OperandId}
    (site : Site f g b c i s s' (.call n) operand dest dest' [.call closure (rest.take n).reverse, .assign dest operand])
    (hstack : s.stack = closure :: rest) (hstack' : s'.stack = dest :: rest.drop n)
    (hn : n ≤ rest.length) :
  Followed f g rt entry b c
  := by
  have hrest : rest ⊆ s.stack := by simp [hstack]
  have hclosure : closure ∈ s.stack := by simp [hstack]
  have hargs : (rest.take n).reverse ⊆ s.stack :=
    List.reverse_subset.mpr (List.Subset.trans (List.take_subset n rest) hrest)
  refine site.followed_answer (.call (c.cells closure) ((rest.take n).reverse.map c.cells))
    rfl rfl ?_ hstack' (List.Subset.trans (List.drop_subset n rest) hrest) ?_
  · simp only [Inst.action, site.read_map hargs, site.read_stack hclosure]
  · rw [← site.stack_eq, hstack]
    simp [Operation.effect, hn, List.map_take, List.map_drop]

/-- Every instruction of the bytecode is matched by what it is lowered to. -/
theorem followed (site : Site f g b c i s s' operation operand dest dest' insts)
    (he : f.EmptyAtJumps) :
  Followed f g rt entry b c
  := by
  have hemits := site.emission.emits
  have hregular := Operation.regular_ofInstruction site.decoded
  have hread : ∀ t ∈ s.stack, g.read rt c t = c.cells t := fun _ ht => site.read_stack ht c
  have hb := site.stack_eq
  generalize hst : s.stack = st at hemits
  generalize hst' : s'.stack = st' at hemits
  rw [hst] at hb hread
  cases hemits with
  | load => exact site.followed_source (by rw [hst', hst])
  | store => exact site.followed_store hst hst'
  | allocRecord =>
    exact site.followed_answer .allocRecord rfl rfl rfl hst' (by simp [hst]) (by rw [← hb]; rfl)
  | fieldLoad n record rest =>
    refine site.followed_answer (.fieldLoad n (c.cells record)) rfl rfl ?_ hst' (by simp [hst])
      (by rw [← hb]; rfl)
    simp [Inst.action, HelperCall.request, HelperCall.target, hread]
  | fieldStore n v record rest =>
    refine site.followed_send (.fieldStore n (c.cells record) (c.cells v)) rfl ?_
      (by rw [← hb, hst']; rfl)
    simp [Inst.action, HelperCall.request, HelperCall.target, hread]
  | indexLoad index record rest =>
    refine site.followed_answer (.indexLoad (c.cells record) (c.cells index)) rfl rfl ?_ hst'
      (by simp [hst]) (by rw [← hb]; rfl)
    simp [Inst.action, HelperCall.request, HelperCall.target, hread]
  | indexStore v index record rest =>
    refine site.followed_send (.indexStore (c.cells record) (c.cells index) (c.cells v)) rfl ?_
      (by rw [← hb, hst']; rfl)
    simp [Inst.action, HelperCall.request, HelperCall.target, hread]
  | allocClosure n function rest enough => exact site.followed_allocClosure hst hst' enough
  | call n closure rest enough => exact site.followed_call hst hst' enough
  | ret => exact site.followed_ret hst
  | binary op rhs lhs rest =>
    have hrest : rest ⊆ s.stack := by simp [hst]
    rcases hregular with rfl | rfl | hop
    · refine site.followed_load (.add (c.cells lhs) (c.cells rhs)) rfl ?_ (by simp [Inst.defs]) hst'
        hrest (by rw [← hb]; rfl)
      simp [Inst.action, hread]
    · refine site.followed_load (.equals (c.cells lhs) (c.cells rhs)) rfl ?_ (by simp [Inst.defs])
        hst' hrest (by rw [← hb]; rfl)
      simp [Inst.action, hread]
    · exact site.followed_binary hop hst hst'
  | unary => exact site.followed_unary hst hst'
  | label l => exact site.followed_shuffle (.inr ⟨l, rfl⟩) (by rw [← hb, hst']; rfl)
  | goto => exact site.followed_goto he
  | branch => exact site.followed_branch he hst hst'
  | dup => exact site.followed_dup hst hst'
  | swap | pop => exact site.followed_shuffle (.inl rfl) (by rw [← hb, hst']; rfl)
  | collect => exact site.followed_send .collect rfl rfl (by rw [← hb, hst']; rfl)
  | throwUninitialized n =>
    exact site.followed_send (.throwUninitialized n) rfl rfl (by rw [← hb, hst']; rfl)

end Site

/-! ### Whole runs -/

/-- Lowered code keeps step with bytecode whose stack is empty at jumps: states stay related and the
outcomes are the same. -/
theorem matches_lower (h : lower f = .ok g) (he : f.EmptyAtJumps) (rt : Runtime World)
    (entry : Nat → Value) :
  Matches (f.step rt) (g.step rt entry) (Related f g) (SameOutcome f) (remaining f)
  := by
  intro b c hr
  cases hi : f.instructions[b.index]? with
  | some i =>
    obtain ⟨s, s', operation, operand, dest, dest', insts, site⟩ := exists_site h hr hi
    exact site.followed he
  | none =>
    -- Both machines have run off the end.
    right
    obtain ⟨s, hs, hpos, -⟩ := hr.point
    obtain ⟨t, ht, rfl, -⟩ := lower_eq_ok h
    have hend : b.index = f.instructions.length :=
      Nat.le_antisymm hr.index_le (List.getElem?_eq_none_iff.mp hi)
    rw [hend, ht] at hs
    have hst : t = s := Except.ok.inj hs
    subst hst
    have hb : f.step rt b = .ended (.returned .none b.world b.trace) := by
      unfold Bytecode.Function.step
      rw [hi]
    have hc : t.func.step rt entry c = .ended (.returned .none c.world c.trace) :=
      Function.step_of_size_le (Nat.le_of_eq hpos.symm)
    refine ⟨_, 1, _, hb, (run_one c).trans hc, ?_⟩
    rw [hr.world_eq, hr.trace_eq]
    exact .returned ..

/-- Both machines start in related states, whatever is in the cells of temps. -/
theorem related_start (f : Bytecode.Function) (g : Function) (locals : Nat → Value)
    (scratch : Cells) (world : World) :
  Related f g (.start locals world) (g.start locals scratch world)
  := by
  refine ⟨Nat.zero_le _, ⟨start f, rfl, rfl, rfl⟩, ?_, rfl, rfl⟩
  intro id n _ hkind
  simp only [Function.start, Function.entryValue, hkind]
  rfl

/-- A position belongs to one instruction only. -/
theorem covers_unique {k k' pos : Nat} (h : Covers f k pos) (h' : Covers f k' pos) :
  k = k'
  := by
  -- Of two instructions, the later starts where the earlier has ended.
  have hlt : ∀ {k k'}, Covers f k pos → Covers f k' pos → ¬ k < k' := by
    rintro k k' ⟨s, s', hs, hs', hle, hlt⟩ ⟨r, r', hr, hr', hle', hlt'⟩ hkk
    rcases Nat.lt_or_ge k' f.instructions.length with hk' | hk'
    · have := size_mono hkk (Nat.le_of_lt hk') hs' hr
      omega
    · have hsame : upTo f (k' + 1) = upTo f k' := by
        unfold upTo
        rw [List.take_of_length_le (by simp; omega), List.take_of_length_le (by simpa using hk')]
      rw [hr', hr] at hsame
      cases hsame
      omega
  rcases Nat.lt_trichotomy k k' with hlt' | heq | hgt
  · exact absurd hlt' (hlt h h')
  · exact heq
  · exact absurd hgt (hlt h' h)

/-- Lowered code behaves as the bytecode does, whatever the runtime does and whatever the
temps held before: both return one value, or fault at one operation, after the same
requests with the same answers, and along runs without end the requests are the same. -/
theorem lower_simulates (h : lower f = .ok g) (he : f.EmptyAtJumps) (rt : Runtime World)
    (locals : Nat → Value) (scratch : Cells) (world : World) :
  let bytecode := fun n => f.run rt n (.start locals world)
  let lowered := fun n => g.run rt locals n (g.start locals scratch world)
  (∀ v w t, (∃ n, bytecode n = .ended (.returned v w t)) ↔ ∃ n, lowered n = .ended (.returned v w t)) ∧
  (∀ k w t, (∃ n, bytecode n = .ended (.failed k w t)) ↔
    ∃ n pos, Covers f k pos ∧ lowered n = .ended (.failed pos w t)) ∧
  (∀ n b, bytecode n = .running b →
    ∃ m c, lowered m = .running c ∧ c.world = b.world ∧ c.trace = b.trace) ∧
  (∀ n c, lowered n = .running c →
    (∃ m b, bytecode m = .running b ∧ c.trace <+: b.trace) ∨
    ∃ m o, bytecode m = .ended o ∧ c.trace <+: o.trace)
  := by
  intro bytecode lowered
  have hm := matches_lower h he rt locals
  have hstart := related_start f g locals scratch world
  refine ⟨?_, ?_, ?_, ?_⟩
  · intro v w t
    constructor
    · rintro ⟨n, hn⟩
      obtain ⟨m, o, ho, hsame⟩ := hm.exists_run hstart hn
      cases hsame
      exact ⟨m, ho⟩
    · rintro ⟨n, hn⟩
      obtain ⟨m, o, ho, hsame⟩ := hm.exists_run_of_run hstart hn
      cases hsame
      exact ⟨m, ho⟩
  · intro k w t
    constructor
    · rintro ⟨n, hn⟩
      obtain ⟨m, o, ho, hsame⟩ := hm.exists_run hstart hn
      cases hsame with
      | failed _ _ hc => exact ⟨m, _, hc, ho⟩
    · rintro ⟨n, pos, hc, hn⟩
      obtain ⟨m, o, ho, hsame⟩ := hm.exists_run_of_run hstart hn
      cases hsame with
      | failed _ _ hc' =>
        rw [covers_unique hc hc']
        exact ⟨m, ho⟩
  · intro n b hn
    obtain ⟨m, c, hc, hr⟩ := hm.simulates.run hstart hn
    exact ⟨m, c, hc, hr.world_eq, hr.trace_eq⟩
  · intro n c hn
    rcases hm.exists_meeting hstart hn with ⟨m, b, k, d, hb, hd, hr⟩ | ⟨m, o, k, o', ho, ho', hsame⟩
    · left
      refine ⟨m, b, hb, ?_⟩
      rw [← hr.trace_eq]
      exact Function.trace_isPrefix_of_run hd
    · right
      refine ⟨m, o, ho, ?_⟩
      have hprefix := Function.trace_isPrefix_of_run_ended ho'
      cases hsame <;> exact hprefix

/-- A loop that counts down from two returns zero, and so does its lowered code. -/
theorem lower_simulates_countdown :
  Bytecode.Function.countdown.EmptyAtJumps ∧ ∃ g, lower .countdown = .ok g ∧
    ∃ n t, g.run .arithmetic (fun _ => .int 2) n (g.start (fun _ => .int 2) (fun _ => .none) ())
      = .ended (.returned (.int 0) () t)
  := by
  have he : Bytecode.Function.countdown.EmptyAtJumps := by decide +kernel
  have hok : (lower .countdown).isOk = true := by decide +kernel
  obtain ⟨g, hg⟩ := exists_eq_ok hok
  obtain ⟨t, ht⟩ : ∃ t, Bytecode.Function.countdown.run .arithmetic 28 (.start (fun _ => .int 2) ())
      = .ended (.returned (.int 0) () t) := ⟨_, rfl⟩
  obtain ⟨hreturn, -⟩ := lower_simulates hg he .arithmetic (fun _ => .int 2) (fun _ => .none) ()
  obtain ⟨n, hn⟩ := (hreturn _ _ _).mp ⟨28, ht⟩
  exact ⟨he, g, hg, n, t, hn⟩

end Lowering

end StackCompiler.IR
