import StackCompiler.Machine.Codegen
import StackCompiler.Proofs.Meaning.Refinement

/-!
# Execution with registers

A machine that carries out the actions of instructions as `Function.step` does, but keeps a
temp or a variable where allocation puts it: in its register, or else in a slot of the frame or
in the array of locals.  A helper may leave anything in the registers that are not saved across
its call, and every instruction whose code calls one is treated so.
-/

namespace StackCompiler.IR

variable {World : Type}

/-! ### Where values are kept -/

/-- A place for the value of a temp or a variable. -/
inductive Home where
  | register (r : Register)
  /-- A slot of the frame. -/
  | slot (n : Nat)
  /-- An entry of the array of locals. -/
  | entry (n : Nat)
  deriving DecidableEq, Repr

/-- The place of an operand: temps and variables have one. -/
def Function.home? (f : Function) (id : OperandId) : Option Home :=
  match f.kind id, (f.operand id).register with
  | .temp _, some r | .var _, some r => some (.register r)
  | .temp n, none => some (.slot n)
  | .var n, none => some (.entry n)
  | _, _ => none

/-- What is in each place. -/
abbrev Storage := Home → Value

namespace Storage

/-- Puts a value into a place. -/
def put (s : Storage) (h : Home) (v : Value) : Storage := fun other => if other = h then v else s other

@[simp]
theorem put_self (s : Storage) (h : Home) (v : Value) :
  s.put h v h = v
  := if_pos rfl

@[simp]
theorem put_of_ne (s : Storage) {h other : Home} (v : Value) (hne : other ≠ h) :
  s.put h v other = s other
  := if_neg hne

variable (f : Function)

/-- Puts the value of an operand into its place. -/
def keep (s : Storage) (id : OperandId) (v : Value) : Storage :=
  match f.home? id with
  | some h => s.put h v
  | none => s

/-- Puts the values of operands into their places, in order. -/
def fill (s : Storage) (writes : List (OperandId × Value)) : Storage :=
  writes.foldl (fun s (id, v) => s.keep f id v) s

/-- Copies a variable from the array of locals into its register, if it has one. -/
def reload (s : Storage) (x : OperandId) : Storage :=
  match f.kind x, f.home? x with
  | .var n, some (.register r) => s.put (.register r) (s (.entry n))
  | _, _ => s

/-- What is in each place after a call of a helper at a position: anything in the registers that
the call need not leave alone and that are not saved. -/
def afterCall (pos : Nat) (left : Register → Value) (s : Storage) : Storage
  | .register r =>
    if r.isCallerSaved && !(Machine.savedAcross f pos).contains r then left r else s (.register r)
  | h => s h

variable {f} {s : Storage} {h : Home}

theorem fill_cons (id : OperandId) (v : Value) (writes : List (OperandId × Value)) :
  s.fill f ((id, v) :: writes) = (s.keep f id v).fill f writes
  := rfl

/-- The value of an operand is put into the place that the operand has. -/
theorem keep_of_home? {id : OperandId} (hid : f.home? id = some h) (v : Value) :
  s.keep f id v = s.put h v
  := by
  unfold keep
  rw [hid]

/-- Keeping the value of an operand leaves every place as it was that is not the operand's. -/
theorem keep_of_ne {id : OperandId} (hid : f.home? id ≠ some h) (v : Value) :
  s.keep f id v h = s h
  := by
  cases hhome : f.home? id with
  | none =>
    unfold keep
    rw [hhome]
  | some h' =>
    rw [keep_of_home? hhome]
    apply put_of_ne
    rintro rfl
    exact hid hhome

/-- A place of no operand that is filled stays as it is. -/
theorem fill_of_ne {writes : List (OperandId × Value)} (hne : ∀ w ∈ writes, f.home? w.1 ≠ some h) :
  s.fill f writes h = s h
  := by
  induction writes generalizing s with
  | nil => rfl
  | cons w writes ih =>
    rw [fill_cons, ih fun w hw => hne w (List.mem_cons_of_mem _ hw)]
    exact keep_of_ne (hne w List.mem_cons_self) w.2

/-- Where all operands are filled with one value, their places hold it. -/
theorem fill_of_mem {writes : List (OperandId × Value)} {v : Value} (hv : ∀ w ∈ writes, w.2 = v)
    (hmem : ∃ w ∈ writes, f.home? w.1 = some h) :
  s.fill f writes h = v
  := by
  induction writes generalizing s with
  | nil =>
    obtain ⟨w, hw, -⟩ := hmem
    cases hw
  | cons w writes ih =>
    rw [fill_cons]
    by_cases hlater : ∃ u ∈ writes, f.home? u.1 = some h
    · exact ih (fun u hu => hv u (List.mem_cons_of_mem _ hu)) hlater
    · have hhome : f.home? w.1 = some h := by
        obtain ⟨u, hu, huh⟩ := hmem
        rcases List.mem_cons.mp hu with rfl | hu
        · exact huh
        · exact absurd ⟨u, hu, huh⟩ hlater
      rw [fill_of_ne fun u hu huh => hlater ⟨u, hu, huh⟩, keep_of_home? hhome, put_self]
      exact hv w List.mem_cons_self

/-- The array of locals is not changed by a load from it. -/
theorem reload_entry (x : OperandId) (n : Nat) :
  s.reload f x (.entry n) = s (.entry n)
  := by
  have hcases : s.reload f x = s ∨ ∃ r v, s.reload f x = s.put (.register r) v := by
    unfold reload
    split
    · exact .inr ⟨_, _, rfl⟩
    · exact .inl rfl
  rcases hcases with h | ⟨r, v, h⟩
  · rw [h]
  · rw [h]
    exact put_of_ne s v nofun

/-- A call leaves a place alone that is no register, or one that is saved across it. -/
theorem afterCall_eq {pos : Nat} {left : Register → Value}
    (hsaved : ∀ r, h = .register r → r.isCallerSaved = true → r ∈ Machine.savedAcross f pos) :
  s.afterCall f pos left h = s h
  := by
  cases h with
  | register r =>
    apply if_neg
    simp only [Bool.and_eq_true, Bool.not_eq_true', List.contains_eq_mem, decide_eq_false_iff_not]
    rintro ⟨hcaller, hnot⟩
    exact hnot (hsaved r rfl hcaller)
  | slot | entry => rfl

end Storage

/-! ### Instructions that differ -/

namespace Inst

/-- Whether the code of an instruction calls a helper. -/
def callsHelper (f : Function) : Inst → Bool
  | assign _ src => (f.kind src).isRemote
  | store dest _ => (f.kind dest).isRemote
  | binary op _ _ _ => op = .add || op = .eq
  | call _ _ | allocClosure _ _ | helper _ | assertion _ _ => true
  | _ => false

/-- Whether an instruction assigns a temp what is in its register already. -/
def isIdle (f : Function) : Inst → Bool
  | assign dest src => (f.isTemp src || f.isVar src) && Machine.inSameRegister f dest src
  | _ => false

end Inst

/-! ### The machine -/

/-- A state of the machine. -/
structure StorageConfig (World : Type) where
  pos : Nat
  storage : Storage
  /-- The return location. -/
  result : Value
  world : World
  /-- The requests that were answered, in order. -/
  trace : List Request

namespace StorageConfig

variable (f : Function) (rt : Runtime World)

/-- The value of an operand. -/
def read (c : StorageConfig World) (id : OperandId) : Value :=
  match f.kind id with
  | .const k => .ofConstant k
  | .cell n => rt.cell n
  | .retval => c.result
  | _ => (f.home? id).elim .none c.storage

/-- Goes on to the next position. -/
def next (c : StorageConfig World) : StorageConfig World := { c with pos := c.pos + 1 }

/-- Puts an answer where it belongs. -/
def deliver (c : StorageConfig World) (v : Value) : Target → StorageConfig World
  | .operand id => { c with storage := c.storage.keep f id v }
  | .result => { c with result := v }
  | .nowhere => c

/-- Carries out an action. -/
def perform (c : StorageConfig World) : Action → Progress (StorageConfig World) (Outcome World)
  | .fill writes => .running { c.next with storage := c.storage.fill f writes }
  | .ask request target =>
    match rt.serve request c.world with
    | some (v, world) =>
      .running ({ c.next with world, trace := c.trace ++ [request] }.deliver f v target)
    | none => .ended (.failed c.pos c.world c.trace)
  | .reload x => .running { c.next with storage := c.storage.reload f x }
  | .goto l =>
    match f.labels.at? l with
    | some pos => .running { c with pos }
    | none => .ended (.failed c.pos c.world c.trace)
  | .ret v => .ended (.returned v c.world c.trace)
  | .fail => .ended (.failed c.pos c.world c.trace)

/-- Runs the instruction at the current position.  A helper that it calls leaves `left` in the
registers that are not saved, and what the instruction gives is put into its place after that. -/
def step (left : Register → Value) (c : StorageConfig World) :
    Progress (StorageConfig World) (Outcome World) :=
  if c.pos < f.size then
    match f.fetch c.pos with
    | some inst =>
      if inst.isIdle f then .running c.next
      else
        let action := inst.action f rt (c.read f rt)
        let storage := if inst.callsHelper f then c.storage.afterCall f c.pos left else c.storage
        { c with storage }.perform f rt action
    | none => .running c.next
  else .ended (.returned .none c.world c.trace)

/-- The progress after a number of steps, in the `n`-th of which a helper leaves `left n`. -/
def run (left : Nat → Register → Value) : Nat → StorageConfig World →
    Progress (StorageConfig World) (Outcome World)
  | 0, c => .running c
  | n + 1, c =>
    match run left n c with
    | .running c' => c'.step f rt (left n)
    | .ended o => .ended o

/-- The state on entry: the array of locals is filled, and elsewhere is what is left there from
before. -/
def start (locals : Nat → Value) (scratch : Storage) (world : World) : StorageConfig World where
  pos := 0
  storage
    | .entry n => locals n
    | h => scratch h
  result := .none
  world
  trace := []

/-! ### Single steps -/

section Steps

variable {f rt} {c : StorageConfig World} {inst : Inst} {left : Register → Value}

theorem step_of_isIdle (hpos : c.pos < f.size) (h : f.fetch c.pos = some inst)
    (hidle : inst.isIdle f = true) :
  c.step f rt left = .running c.next
  := by
  unfold step
  rw [if_pos hpos, h]
  exact if_pos hidle

/-- An instruction reads its operands first.  If its code calls a helper, registers are lost then,
and its action is carried out after that. -/
theorem step_of_fetch (hpos : c.pos < f.size) (h : f.fetch c.pos = some inst)
    (hidle : inst.isIdle f = false) :
  c.step f rt left
    = { c with storage := if inst.callsHelper f then c.storage.afterCall f c.pos left else c.storage }.perform
        f rt (inst.action f rt (c.read f rt))
  := by
  unfold step
  rw [if_pos hpos, h]
  simp only [hidle, Bool.false_eq_true, if_false]

theorem step_of_fetch_none (hpos : c.pos < f.size) (h : f.fetch c.pos = none) :
  c.step f rt left = .running c.next
  := by
  unfold step
  rw [if_pos hpos, h]

theorem step_of_size_le (hpos : f.size ≤ c.pos) :
  c.step f rt left = .ended (.returned .none c.world c.trace)
  := by
  unfold step
  rw [if_neg (Nat.not_lt_of_le hpos)]

end Steps

end StorageConfig

end StackCompiler.IR

/-! ### Calls in generated code -/

namespace StackCompiler.Machine

open IR (Inst OperandId)

/-- The code, if there is any, calls no helper. -/
structure Quiet (e : Emit) : Prop where
  notMem : ∀ c, e = .ok c → ∀ dst helper, .helperAddress dst helper ∉ c

theorem quiet_codes (insts : List Instruction) :
  Quiet (.ok (codes insts))
  := by
  constructor
  rintro _ ⟨⟩ dst helper hmem
  obtain ⟨inst, -, hinst⟩ := List.mem_map.mp hmem
  cases hinst

theorem quiet_moveTo (dst src : Register) :
  Quiet (.ok (moveTo dst src))
  := by
  unfold moveTo
  split
  · exact quiet_codes []
  · exact quiet_codes _

theorem quiet_singleton {fragment : Fragment} (h : ∀ dst helper, fragment ≠ .helperAddress dst helper) :
  Quiet (.ok [fragment])
  := by
  constructor
  rintro _ ⟨⟩ dst helper hmem
  exact h dst helper (List.mem_singleton.mp hmem).symm

theorem quiet_loadConstant (dst : Register) (c : Bytecode.Constant) :
  Quiet (.ok (loadConstant dst c))
  := by
  cases c with
  | string s => exact quiet_singleton nofun
  | _ => exact quiet_codes _

/-- Code in two parts that call no helper calls none. -/
theorem Quiet.append {a b : Emit} (ha : Quiet a) (hb : Quiet b) :
  Quiet (do return (← a) ++ (← b))
  := by
  constructor
  intro c hc dst helper hmem
  cases a with
  | error e => cases hc
  | ok x =>
    cases b with
    | error e => cases hc
    | ok y =>
      cases hc
      rcases List.mem_append.mp hmem with hmem | hmem
      · exact ha.notMem x rfl dst helper hmem
      · exact hb.notMem y rfl dst helper hmem

/-- Code in three parts that call no helper calls none. -/
theorem Quiet.append₃ {a b c : Emit} (ha : Quiet a) (hb : Quiet b) (hc : Quiet c) :
  Quiet (do return (← a) ++ (← b) ++ (← c))
  := by
  have h := (ha.append hb).append hc
  cases a with
  | error e => exact h
  | ok x =>
    cases b with
    | error e => exact h
    | ok y => exact h

variable {f : IR.Function} {pos : Nat}

/-- The load of an operand calls no helper. -/
theorem quiet_loadOperand (dst : Register) (id : OperandId) :
  Quiet (loadOperand f dst id)
  := by
  unfold loadOperand
  dsimp only
  split
  · exact quiet_moveTo ..
  · exact quiet_moveTo ..
  · exact quiet_codes _
  · exact quiet_codes _
  · exact quiet_codes _
  · exact quiet_loadConstant ..
  · exact quiet_moveTo ..
  · exact ⟨nofun⟩
  · exact ⟨nofun⟩
  · exact ⟨nofun⟩

/-- Reading an operand calls no helper if the operand is kept in the function. -/
theorem quiet_readOperand {id : OperandId} (h : (f.kind id).isRemote = false) :
  Quiet (readOperand f pos id)
  := by
  unfold IR.Function.kind at h
  unfold readOperand
  split
  · rename_i hkind
    rw [hkind] at h
    cases h
  · rename_i hkind
    rw [hkind] at h
    cases h
  · rename_i hkind
    rw [hkind] at h
    cases h
  · exact quiet_loadOperand ..

/-- Writing an operand calls no helper if the operand is kept in the function. -/
theorem quiet_writeOperand {id : OperandId} (h : (f.kind id).isRemote = false) :
  Quiet (writeOperand f pos id)
  := by
  unfold IR.Function.kind at h
  unfold writeOperand
  dsimp only
  split
  · exact quiet_moveTo ..
  · exact quiet_moveTo ..
  · exact quiet_codes _
  · exact quiet_codes _
  · rename_i hkind
    rw [hkind] at h
    cases h
  · rename_i hkind
    rw [hkind] at h
    cases h
  · exact ⟨nofun⟩

/-- An instruction calls a helper in its code only if it counts as one that does. -/
theorem callsHelper_of_mem_instCode {inst : Inst} (hfits : inst.Fits f) {c : List Fragment}
    (hcode : instCode f pos inst = .ok c) {dst : Register} {helper : Helper}
    (hmem : .helperAddress dst helper ∈ c) :
  inst.callsHelper f = true
  := by
  by_contra hcalls
  rw [Bool.not_eq_true] at hcalls
  suffices h : Quiet (instCode f pos inst) from h.notMem c hcode dst helper hmem
  have hdef : ∀ t ∈ inst.defs, Quiet (writeOperand f pos t) := by
    intro t ht
    obtain ⟨n, hn⟩ := IR.Function.isTemp_iff.mp (hfits.def_temp t ht).2
    apply quiet_writeOperand
    rw [hn]
    rfl
  cases inst with
  | assign dest src =>
    simp only [instCode]
    split
    · exact quiet_codes []
    · exact (quiet_readOperand hcalls).append (hdef dest List.mem_cons_self)
  | store dest src => exact (quiet_loadOperand ..).append (quiet_writeOperand hcalls)
  | forceLoad x =>
    simp only [instCode]
    split
    · exact quiet_codes _
    · exact quiet_codes []
  | binary op dest lhs rhs =>
    refine Quiet.append ?_ (hdef dest List.mem_cons_self)
    unfold binaryCode
    cases op with
    | add | eq => cases hcalls
    | _ =>
      exact (quiet_loadOperand ..).append₃ (quiet_loadOperand ..) (quiet_codes _)
  | unary op dest src =>
    exact (quiet_loadOperand ..).append₃ (quiet_codes [unaryCode op]) (hdef dest List.mem_cons_self)
  | call | allocClosure | helper | assertion => cases hcalls
  | ret value => exact (quiet_loadOperand ..).append (quiet_codes _)
  | label | jump | shortJump => exact quiet_singleton nofun
  | condJump cond l =>
    have hjump : Quiet (.ok [.item (.jump .equal l)]) := quiet_singleton nofun
    exact (quiet_loadOperand ..).append₃ (quiet_codes [_]) hjump
  | fork src dest1 dest2 =>
    exact (quiet_loadOperand ..).append₃ (hdef dest1 List.mem_cons_self)
      (hdef dest2 (List.mem_cons_of_mem _ List.mem_cons_self))

end StackCompiler.Machine
