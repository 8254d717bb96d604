import StackCompiler.Proofs.Code.Operands
import StackCompiler.Proofs.Semantics.Transition
import StackCompiler.Proofs.Semantics.World

/-!
# Execution of the intermediate representation

`Inst.action` says what an instruction does given the values of its operands, and the
machine `Function.step` carries it out with one cell for each temp and variable.  A
position marked for removal is passed over, and a run off the end returns the absent
value.
-/

namespace StackCompiler.IR

variable {World : Type}

/-- Where the answer to a request goes. -/
inductive Target where
  | operand (id : OperandId)
  /-- The return location. -/
  | result
  | nowhere
  deriving DecidableEq, Repr

/-- What an instruction comes to. -/
inductive Action where
  /-- Fills operands, in order, and goes on. -/
  | fill (writes : List (OperandId × Value))
  /-- Asks the runtime and goes on. -/
  | ask (request : Request) (target : Target)
  /-- Fills a variable from the array of locals and goes on. -/
  | reload (var : OperandId)
  | goto (l : Label)
  | ret (v : Value)
  | fail
  deriving DecidableEq, Repr

/-- Fills an operand with the result of an inline operation. -/
def Action.fillWith (dest : OperandId) : Option Value → Action
  | some v => fill [(dest, v)]
  | none => fail

namespace HelperCall

/-- The request that a call of a helper makes. -/
def request (value : OperandId → Value) : HelperCall → Request
  | collect => .collect
  | allocRecord => .allocRecord
  | fieldLoad field record => .fieldLoad field (value record)
  | fieldStore field record v => .fieldStore field (value record) (value v)
  | indexLoad record index => .indexLoad (value record) (value index)
  | indexStore record index v => .indexStore (value record) (value index) (value v)
  | throwUninitialized name => .throwUninitialized name

/-- Where the answer to a helper goes: loads and allocations give one. -/
def target : HelperCall → Target
  | allocRecord | fieldLoad _ _ | indexLoad _ _ => .result
  | collect | fieldStore _ _ _ | indexStore _ _ _ | throwUninitialized _ => .nowhere

end HelperCall

/-- What an instruction comes to when its operands have the given values. -/
def Inst.action (f : Function) (rt : Runtime World) (value : OperandId → Value) : Inst → Action
  | assign dest src =>
    match f.kind src with
    | .global n => .ask (.readGlobal n) (.operand dest)
    | .contents n => .ask (.readCell (rt.cell n)) (.operand dest)
    | .function n => .ask (.readFunction n) (.operand dest)
    | _ => .fill [(dest, value src)]
  | store dest src =>
    match f.kind dest with
    | .global n => .ask (.writeGlobal n (value src)) .nowhere
    | .contents n => .ask (.writeCell (rt.cell n) (value src)) .nowhere
    | _ => .fill [(dest, value src)]
  | forceLoad var => .reload var
  | binary .add dest lhs rhs => .ask (.add (value lhs) (value rhs)) (.operand dest)
  | binary .eq dest lhs rhs => .ask (.equals (value lhs) (value rhs)) (.operand dest)
  | binary op dest lhs rhs => .fillWith dest (op.perform rt (value lhs) (value rhs))
  | unary op dest src => .fillWith dest (op.perform rt (value src))
  | call closure args => .ask (.call (value closure) (args.map value)) .result
  | allocClosure function refs => .ask (.allocClosure (value function) (refs.map value)) .result
  | ret v => .ret (value v)
  | label _ => .fill []
  | jump l | shortJump l => .goto l
  | condJump cond l => if value cond = .bool true then .goto l else .fill []
  | helper request => .ask (request.request value) request.target
  | assertion kind arg => if kind.admits (value arg) then .fill [] else .fail
  | fork src dest1 dest2 => .fill [(dest1, value src), (dest2, value src)]

/-- Operations that need no helper are carried out in line. -/
theorem Inst.action_binary {op : BinOp} (hadd : op ≠ .add) (heq : op ≠ .eq) (f : Function)
    (rt : Runtime World) (value : OperandId → Value) (dest lhs rhs : OperandId) :
  (binary op dest lhs rhs).action f rt value = .fillWith dest (op.perform rt (value lhs) (value rhs))
  := by
  cases op
  case add => exact absurd rfl hadd
  case eq => exact absurd rfl heq
  all_goals rfl

/-- An assignment fills its temp with a value at hand or asks the runtime for one. -/
theorem Inst.action_assign (f : Function) (rt : Runtime World) (value : OperandId → Value)
    (d s : OperandId) :
  (assign d s).action f rt value = .fill [(d, value s)] ∨
    ∃ request, request.isEffect = false ∧
      (assign d s).action f rt value = .ask request (.operand d)
  := by
  cases hkind : f.kind s <;> simp [action, hkind, Request.isEffect]

/-- A store fills its place or asks the runtime to. -/
theorem Inst.action_store (f : Function) (rt : Runtime World) (value : OperandId → Value)
    (x s : OperandId) :
  (store x s).action f rt value = .fill [(x, value s)] ∨
    f.isVar x = false ∧ ∃ request, (store x s).action f rt value = .ask request .nowhere
  := by
  rw [Bool.eq_false_iff, ne_eq, Function.isVar_iff]
  cases hkind : f.kind x <;> simp [action, hkind]

/-- Only jumps go elsewhere. -/
theorem Inst.target?_of_goto {f : Function} {rt : Runtime World} {value : OperandId → Value}
    {inst : Inst} {l : Label} (h : inst.action f rt value = .goto l) :
  inst.target? = some l
  := by
  cases inst with
  | jump l' | shortJump l' =>
    cases h
    rfl
  | condJump cond l' =>
    simp only [action] at h
    split at h <;> cases h
    rfl
  | binary op d x y =>
    cases op <;> simp only [action, Action.fillWith] at h <;> first | cases h | (split at h <;> cases h)
  | unary op d x =>
    simp only [action, Action.fillWith] at h
    split at h <;> cases h
  | assign d s =>
    simp only [action] at h
    split at h <;> cases h
  | store d s =>
    simp only [action] at h
    split at h <;> cases h
  | assertion kind t =>
    simp only [action] at h
    split at h <;> cases h
  | _ => cases h

/-- The cells that an instruction fills. -/
def Inst.targets (f : Function) : Inst → List OperandId
  | store x _ =>
    match f.kind x with
    | .global _ | .contents _ => []
    | _ => [x]
  | forceLoad x => if f.isVar x then [x] else []
  | inst => inst.defs

/-- A store fills no cell but its destination. -/
theorem Inst.eq_of_mem_targets_store {f : Function} {x s t : OperandId}
    (h : t ∈ (store x s).targets f) :
  t = x
  := by
  cases hkind : f.kind x with
  | global | contents => simp [targets, hkind] at h
  | _ =>
    simp only [targets, hkind, List.mem_singleton] at h
    exact h

/-- A variable that is stored to or loaded is filled. -/
theorem Inst.mem_targets_of_isVar {f : Function} {x : OperandId} (hx : f.isVar x = true) {inst : Inst}
    (h : inst = .forceLoad x ∨ ∃ s, inst = .store x s) :
  x ∈ inst.targets f
  := by
  rcases h with rfl | ⟨s, rfl⟩
  · simp [targets, hx]
  · obtain ⟨n, hn⟩ := Function.isVar_iff.mp hx
    simp [targets, hn]

/-! ### The machine -/

/-- The values of temps and variables. -/
abbrev Cells := OperandId → Value

namespace Cells

/-- Puts a value into a cell. -/
def put (cells : Cells) (id : OperandId) (v : Value) : Cells :=
  fun other => if other = id then v else cells other

@[simp]
theorem put_self (cells : Cells) (id : OperandId) (v : Value) :
  cells.put id v id = v
  := if_pos rfl

@[simp]
theorem put_of_ne (cells : Cells) {id other : OperandId} (v : Value) (h : other ≠ id) :
  cells.put id v other = cells other
  := if_neg h

/-- The values of cells, the first of which has been given a value, are this value and the values
of the others. -/
theorem map_put_cons {cells : Cells} {id : OperandId} {v : Value} {ids : List OperandId}
    (h : id ∉ ids) :
  (id :: ids).map (cells.put id v) = v :: ids.map cells
  := by
  rw [List.map_cons, put_self]
  congr 1
  apply List.map_congr_left
  intro other hother
  apply put_of_ne
  rintro rfl
  exact h hother

/-- Puts values into cells, in order. -/
def fill (cells : Cells) (writes : List (OperandId × Value)) : Cells :=
  writes.foldl (fun cells (id, v) => cells.put id v) cells

@[simp]
theorem fill_nil (cells : Cells) :
  cells.fill [] = cells
  := rfl

@[simp]
theorem fill_cons (cells : Cells) (id : OperandId) (v : Value) (writes : List (OperandId × Value)) :
  cells.fill ((id, v) :: writes) = (cells.put id v).fill writes
  := rfl

/-- A cell that is filled holds one of the values put there. -/
theorem fill_cases (cells : Cells) (writes : List (OperandId × Value)) (id : OperandId) :
  (id, cells.fill writes id) ∈ writes ∨
    cells.fill writes id = cells id ∧ ∀ v, (id, v) ∉ writes
  := by
  induction writes generalizing cells with
  | nil => exact .inr ⟨rfl, fun _ => nofun⟩
  | cons w writes ih =>
    obtain ⟨d, u⟩ := w
    rw [fill_cons]
    rcases ih (cells.put d u) with h | ⟨h, hne⟩
    · exact .inl (List.mem_cons_of_mem _ h)
    · rw [h]
      by_cases hd : id = d
      · subst hd
        left
        rw [put_self]
        exact List.mem_cons_self
      · right
        rw [put_of_ne _ _ hd]
        refine ⟨rfl, ?_⟩
        intro v hv
        rcases List.mem_cons.mp hv with heq | hv
        · cases heq
          exact hd rfl
        · exact hne v hv

end Cells

/-- A state of the machine. -/
structure Config (World : Type) where
  pos : Nat
  cells : Cells
  /-- The return location. -/
  result : Value
  world : World
  /-- The requests that were answered, in order. -/
  trace : List Request

namespace Config

/-- Goes on to the next position. -/
def next (c : Config World) : Config World := { c with pos := c.pos + 1 }

/-- Puts an answer where it belongs. -/
def deliver (c : Config World) (v : Value) : Target → Config World
  | .operand id => { c with cells := c.cells.put id v }
  | .result => { c with result := v }
  | .nowhere => c

end Config

namespace Function

variable (f : Function) (rt : Runtime World) (locals : Nat → Value)

/-- The instruction at a position, unless it is marked for removal. -/
def fetch (pos : Nat) : Option Inst := if f.isRemoved pos then none else f.inst? pos

/-- The value of an operand. -/
def read (c : Config World) (id : OperandId) : Value :=
  match f.kind id with
  | .const k => .ofConstant k
  | .cell n => rt.cell n
  | .retval => c.result
  | _ => c.cells id

/-- The value of a variable on entry. -/
def entryValue (id : OperandId) : Option Value :=
  match f.kind id with
  | .var n => some (locals n)
  | _ => none

/-- Carries out an action. -/
def perform (c : Config World) : Action → Progress (Config World) (Outcome World)
  | .fill writes => .running { c.next with cells := c.cells.fill writes }
  | .ask request target =>
    match rt.serve request c.world with
    | some (v, world) =>
      .running ({ c.next with world, trace := c.trace ++ [request] }.deliver v target)
    | none => .ended (.failed c.pos c.world c.trace)
  | .reload var =>
    match f.entryValue locals var with
    | some v => .running { c.next with cells := c.cells.put var v }
    | none => .running c.next
  | .goto l =>
    match f.labels.at? l with
    | some pos => .running { c with pos }
    | none => .ended (.failed c.pos c.world c.trace)
  | .ret v => .ended (.returned v c.world c.trace)
  | .fail => .ended (.failed c.pos c.world c.trace)

/-- Runs the instruction at the current position. -/
def step (c : Config World) : Progress (Config World) (Outcome World) :=
  if c.pos < f.size then
    match f.fetch c.pos with
    | some inst => f.perform rt locals c (inst.action f rt (f.read rt c))
    | none => .running c.next
  else .ended (.returned .none c.world c.trace)

/-- The state on entry: variables hold their locals, and temps what is left there from before. -/
def start (scratch : Cells) (world : World) : Config World where
  pos := 0
  cells := fun id => (f.entryValue locals id).getD (scratch id)
  result := .none
  world
  trace := []

/-- The progress of a function after a number of steps. -/
def run (n : Nat) (c : Config World) : Progress (Config World) (Outcome World) :=
  Progress.run (f.step rt locals) n c

/-- The writes to temps and variables that the next step makes. -/
def writes (c : Config World) : List (OperandId × Value) :=
  match f.fetch c.pos with
  | none => []
  | some inst =>
    match inst.action f rt (f.read rt c) with
    | .fill writes => writes
    | .ask request (.operand id) =>
      match rt.serve request c.world with
      | some (v, _) => [(id, v)]
      | none => []
    | .reload var =>
      match f.entryValue locals var with
      | some v => [(var, v)]
      | none => []
    | _ => []

/-! ### Single steps -/

variable {f : Function} {rt : Runtime World} {locals : Nat → Value} {c c' : Config World}

theorem step_of_fetch {inst : Inst} (hpos : c.pos < f.size) (h : f.fetch c.pos = some inst) :
  f.step rt locals c = f.perform rt locals c (inst.action f rt (f.read rt c))
  := by
  unfold step
  rw [if_pos hpos, h]

theorem step_of_fetch_none (hpos : c.pos < f.size) (h : f.fetch c.pos = none) :
  f.step rt locals c = .running c.next
  := by
  unfold step
  rw [if_pos hpos, h]

theorem step_of_size_le (hpos : f.size ≤ c.pos) :
  f.step rt locals c = .ended (.returned .none c.world c.trace)
  := by
  unfold step
  rw [if_neg (Nat.not_lt_of_le hpos)]

/-- The value of a temp is in its cell. -/
theorem read_temp {t : OperandId} (h : f.isTemp t = true) :
  f.read rt c t = c.cells t
  := by
  obtain ⟨n, hn⟩ := isTemp_iff.mp h
  unfold read
  rw [hn]

/-- A step makes its writes and goes on to the next position or to a label. -/
theorem step_running (h : f.step rt locals c = .running c') :
  c'.cells = c.cells.fill (f.writes rt locals c) ∧
    (c'.pos = c.pos + 1 ∨ ∃ inst l, f.fetch c.pos = some inst ∧ inst.target? = some l ∧
      f.labels.at? l = some c'.pos ∧ f.writes rt locals c = [])
  := by
  unfold step at h
  unfold writes
  split at h
  · split at h
    · rename_i inst hfetch
      simp only [hfetch]
      cases haction : inst.action f rt (f.read rt c) with
      | fill ws =>
        rw [haction] at h
        cases h
        exact ⟨rfl, .inl rfl⟩
      | ask request target =>
        rw [haction] at h
        simp only [perform] at h
        split at h
        · rename_i v world hserve
          cases h
          cases target with
          | operand id =>
            simp only [hserve]
            exact ⟨rfl, .inl rfl⟩
          | result => exact ⟨rfl, .inl rfl⟩
          | nowhere => exact ⟨rfl, .inl rfl⟩
        · cases h
      | reload var =>
        rw [haction] at h
        simp only [perform] at h
        split at h
        · rename_i v hv
          cases h
          simp only [hv]
          exact ⟨rfl, .inl rfl⟩
        · rename_i hv
          cases h
          simp only [hv]
          exact ⟨rfl, .inl rfl⟩
      | goto l =>
        rw [haction] at h
        simp only [perform] at h
        split at h
        · rename_i pos hpos
          cases h
          exact ⟨rfl, .inr ⟨inst, l, rfl, Inst.target?_of_goto haction, hpos, rfl⟩⟩
        · cases h
      | ret v =>
        rw [haction] at h
        cases h
      | fail =>
        rw [haction] at h
        cases h
    · rename_i hfetch
      cases h
      simp only [hfetch]
      exact ⟨rfl, .inl rfl⟩
  · cases h

/-- Instructions that fill nothing write nothing. -/
theorem writes_eq_nil {inst : Inst} (h : f.fetch c.pos = some inst) (hdefs : inst.defs = [])
    (hstore : ∀ x s, inst ≠ .store x s) (hload : ∀ x, inst ≠ .forceLoad x) :
  f.writes rt locals c = []
  := by
  unfold writes
  rw [h]
  cases inst with
  | assign | binary | unary | fork => cases hdefs
  | store x s => exact absurd rfl (hstore x s)
  | forceLoad x => exact absurd rfl (hload x)
  | condJump cond l =>
    simp only [Inst.action]
    by_cases hcond : f.read rt c cond = .bool true <;> simp [hcond]
  | assertion kind t =>
    simp only [Inst.action]
    by_cases hkind : kind.admits (f.read rt c t) = true <;> simp [hkind]
  | helper request => cases request <;> rfl
  | _ => rfl

/-- A run goes on from an assertion only if it is met. -/
theorem admits_of_step {kind : AssertKind} {t : OperandId} (hstep : f.step rt locals c = .running c')
    (h : f.fetch c.pos = some (.assertion kind t)) :
  kind.admits (f.read rt c t) = true
  := by
  unfold step at hstep
  split at hstep
  · rw [h] at hstep
    simp only [Inst.action] at hstep
    split at hstep
    · assumption
    · cases hstep
  · cases hstep

/-- Variables have a value on entry. -/
theorem isSome_entryValue (locals : Nat → Value) (x : OperandId) :
  (f.entryValue locals x).isSome = f.isVar x
  := by
  unfold entryValue isVar Operand.isVar kind
  cases (f.operand x).kind <;> rfl

/-- A step that goes on fills the cells that its instruction fills. -/
theorem map_fst_writes {inst : Inst} (hstep : f.step rt locals c = .running c')
    (h : f.fetch c.pos = some inst) :
  (f.writes rt locals c).map Prod.fst = inst.targets f
  := by
  have hpos : c.pos < f.size := by
    rcases Nat.lt_or_ge c.pos f.size with hlt | hge
    · exact hlt
    · rw [step_of_size_le hge] at hstep
      cases hstep
  rw [step_of_fetch hpos h] at hstep
  have hask : ∀ request d, inst.action f rt (f.read rt c) = .ask request (.operand d) →
      (f.writes rt locals c).map Prod.fst = [d] := by
    intro request d haction
    rw [haction] at hstep
    unfold writes
    simp only [h, haction]
    simp only [perform] at hstep
    split at hstep
    · rfl
    · cases hstep
  have hfill : ∀ ws, inst.action f rt (f.read rt c) = .fill ws → f.writes rt locals c = ws := by
    intro ws haction
    unfold writes
    simp only [h, haction]
  have hfillWith : ∀ d v?, inst.action f rt (f.read rt c) = .fillWith d v? →
      (f.writes rt locals c).map Prod.fst = [d] := by
    intro d v? haction
    cases v? with
    | none =>
      rw [haction] at hstep
      cases hstep
    | some v =>
      rw [hfill _ haction]
      rfl
  cases inst with
  | assign d s =>
    rcases Inst.action_assign f rt (f.read rt c) d s with haction | ⟨request, -, haction⟩
    · rw [hfill _ haction]
      rfl
    · exact hask request d haction
  | store x s =>
    cases hkind : f.kind x
    case global =>
      unfold writes
      simp [h, Inst.action, hkind, Inst.targets]
    case contents =>
      unfold writes
      simp [h, Inst.action, hkind, Inst.targets]
    all_goals
      rw [hfill [(x, f.read rt c s)] (by simp [Inst.action, hkind])]
      simp [Inst.targets, hkind]
  | forceLoad x =>
    unfold writes
    simp only [h, Inst.action, Inst.targets]
    rw [← isSome_entryValue locals]
    cases f.entryValue locals x <;> rfl
  | binary op d l r =>
    by_cases hop : op = .add ∨ op = .eq
    · rcases hop with rfl | rfl
      · exact hask _ d rfl
      · exact hask _ d rfl
    · rw [not_or] at hop
      exact hfillWith d _ (Inst.action_binary hop.1 hop.2 ..)
  | unary op d s => exact hfillWith d _ rfl
  | fork s a b =>
    rw [hfill _ rfl]
    rfl
  | _ =>
    rw [writes_eq_nil h rfl nofun nofun]
    rfl

/-- The requests answered so far stay. -/
theorem trace_isPrefix_of_perform {action : Action}
    (h : f.perform rt locals c action = .running c') :
  c.trace <+: c'.trace
  := by
  cases action with
  | fill writes =>
    cases h
    exact List.prefix_rfl
  | ask request target =>
    simp only [perform] at h
    split at h
    · cases h
      cases target <;> exact List.prefix_append ..
    · cases h
  | reload var =>
    simp only [perform] at h
    split at h <;> cases h <;> exact List.prefix_rfl
  | goto l =>
    simp only [perform] at h
    split at h
    · cases h
      exact List.prefix_rfl
    · cases h
  | ret v => cases h
  | fail => cases h

/-- A step adds requests at the end of the trace. -/
theorem trace_isPrefix_of_step (h : f.step rt locals c = .running c') :
  c.trace <+: c'.trace
  := by
  unfold step at h
  split at h
  · split at h
    · exact trace_isPrefix_of_perform h
    · cases h
      exact List.prefix_rfl
  · cases h

/-- A step that ends the run leaves the trace as it is. -/
theorem trace_of_step_ended {o : Outcome World} (h : f.step rt locals c = .ended o) :
  o.trace = c.trace
  := by
  have hperform : ∀ action, f.perform rt locals c action = .ended o → o.trace = c.trace := by
    intro action ha
    cases action with
    | fill writes => cases ha
    | ask request target =>
      simp only [perform] at ha
      split at ha
      · cases ha
      · cases ha
        rfl
    | reload var =>
      simp only [perform] at ha
      split at ha <;> cases ha
    | goto l =>
      simp only [perform] at ha
      split at ha
      · cases ha
      · cases ha
        rfl
    | ret v =>
      cases ha
      rfl
    | fail =>
      cases ha
      rfl
  unfold step at h
  split at h
  · split at h
    · exact hperform _ h
    · cases h
  · cases h
    rfl

theorem trace_isPrefix_of_run {n : Nat} (h : f.run rt locals n c = .running c') :
  c.trace <+: c'.trace
  := Progress.invariant_of_run (I := fun d => c.trace <+: d.trace)
    (fun _ _ hd hstep => hd.trans (trace_isPrefix_of_step hstep)) List.prefix_rfl h

/-- A run that ends has added requests at the end of the trace. -/
theorem trace_isPrefix_of_run_ended {n : Nat} {o : Outcome World}
    (h : f.run rt locals n c = .ended o) :
  c.trace <+: o.trace
  := by
  obtain ⟨m, d, hm, hd⟩ := Progress.exists_last_step h
  rw [trace_of_step_ended hd]
  exact trace_isPrefix_of_run hm

end Function

end StackCompiler.IR
