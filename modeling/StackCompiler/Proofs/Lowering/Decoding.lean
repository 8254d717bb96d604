import StackCompiler.IR.Operation
import StackCompiler.Proofs.Semantics.StackMachine

/-!
# Operations on the stack machine

`Operation.effect` is what a checked operation does on the stack machine.  An instruction
that passes the check does what its operation does.
-/

namespace StackCompiler.IR

open Bytecode (Instruction Effect)

variable {World : Type}

namespace Operation

/-- What an operation does with the values on the stack, the top one first. -/
def effect (rt : Runtime World) (locals : Nat → Value) : Operation → List Value → Effect
  | load (.const c), st => .next (.ofConstant c :: st)
  | load (.var n), st => .next (locals n :: st)
  | load (.cell n), st => .next (rt.cell n :: st)
  | load (.global n), st => .load (.readGlobal n) st
  | load (.contents n), st => .load (.readCell (rt.cell n)) st
  | load (.function n), st => .load (.readFunction n) st
  | store (.var n), v :: st => .assign n v st
  | store (.global n), v :: st => .send (.writeGlobal n v) st
  | store (.contents n), v :: st => .send (.writeCell (rt.cell n) v) st
  | allocRecord, st => .load .allocRecord st
  | fieldLoad n, record :: st => .load (.fieldLoad n record) st
  | fieldStore n, v :: record :: st => .send (.fieldStore n record v) st
  | indexLoad, index :: record :: st => .load (.indexLoad record index) st
  | indexStore, v :: index :: record :: st => .send (.indexStore record index v) st
  | allocClosure n, function :: st =>
    if n ≤ st.length then .load (.allocClosure function (st.take n)) (st.drop n) else .fault
  | call n, closure :: st =>
    if n ≤ st.length then .load (.call closure (st.take n).reverse) (st.drop n) else .fault
  | ret, v :: _ => .ret v
  | binary .add, r :: l :: st => .load (.add l r) st
  | binary .eq, r :: l :: st => .load (.equals l r) st
  | binary op, r :: l :: st =>
    match op.compute? l r with
    | some v => .next (v :: st)
    | none => .fault
  | unary op, v :: st =>
    match op.compute? v with
    | some v => .next (v :: st)
    | none => .fault
  | label _, st => .next st
  | goto l, st => .goto l st
  | branch l, .bool b :: st => if b then .goto l st else .next st
  | dup, v :: st => .next (v :: v :: st)
  | swap, v :: u :: st => .next (u :: v :: st)
  | pop, _ :: st => .next st
  | collect, st => .send .collect st
  | throwUninitialized n, st => .send (.throwUninitialized n) st
  | _, _ => .fault

/-! ### Checked operands -/

variable {f : Bytecode.Function} {index : Nat} {i : Instruction}

/-- An index that passes its check is the argument of the instruction, and within its table. -/
theorem indexInto_eq_ok {table : String} {length n : Nat}
    (h : indexInto index i table length = .ok n) :
  n = i.argument ∧ n < length
  := by
  unfold indexInto operandOf at h
  unfold Instruction.argument
  cases hi : i.operand with
  | none =>
    rw [hi] at h
    cases h
  | some m =>
    rw [hi] at h
    simp only [bind, Except.bind] at h
    split at h
    · rename_i hm
      cases h
      exact ⟨rfl, by omega⟩
    · cases h

/-- A label that passes its check is the argument of the instruction. -/
theorem labelOf_eq_ok {l : Label} (h : labelOf index i = .ok l) :
  l = i.argument
  := by
  unfold labelOf operandOf at h
  unfold Instruction.argument
  cases hi : i.operand with
  | none =>
    rw [hi] at h
    cases h
  | some m =>
    rw [hi] at h
    simp only [bind, Except.bind] at h
    split at h
    · cases h
      rfl
    · cases h

/-- A count that passes its check is the argument of the instruction. -/
theorem countOf_eq_ok {n : Nat} (h : countOf index i = .ok n) :
  n = i.argument
  := by
  unfold countOf operandOf at h
  unfold Instruction.argument
  cases hi : i.operand with
  | none =>
    rw [hi] at h
    cases h
  | some m =>
    rw [hi] at h
    simp only [bind, Except.bind] at h
    split at h
    · cases h
      rfl
    · cases h

/-- A computation that gives a result after a check gives it for some checked value. -/
theorem map_eq_ok {α β : Type} {x : Except CompileError α} {make : α → β} {b : β}
    (h : (do let a ← x; return make a) = .ok b) :
  ∃ a, x = .ok a ∧ b = make a
  := by
  cases x with
  | error e => cases h
  | ok a =>
    cases h
    exact ⟨a, rfl, rfl⟩

/-- A checked instruction does what its operation does. -/
theorem effect_ofInstruction (rt : Runtime World) (locals : Nat → Value) {operation : Operation}
    (h : ofInstruction f index i = .ok operation) (stack : List Value) :
  i.effect f rt locals stack = operation.effect rt locals stack
  := by
  obtain ⟨op, arg⟩ := i
  cases op
  case loadConst =>
    obtain ⟨n, hn, rfl⟩ := map_eq_ok h
    obtain ⟨rfl, -⟩ := indexInto_eq_ok hn
    rfl
  case loadFunc | loadLocal | loadGlobal | pushRef | loadRef | throwUninitialized =>
    obtain ⟨n, hn, rfl⟩ := map_eq_ok h
    obtain ⟨rfl, -⟩ := indexInto_eq_ok hn
    rfl
  case storeLocal | storeGlobal | storeRef | fieldLoad =>
    obtain ⟨n, hn, rfl⟩ := map_eq_ok h
    obtain ⟨rfl, -⟩ := indexInto_eq_ok hn
    rcases stack with - | ⟨v, st⟩ <;> rfl
  case fieldStore =>
    obtain ⟨n, hn, rfl⟩ := map_eq_ok h
    obtain ⟨rfl, -⟩ := indexInto_eq_ok hn
    rcases stack with - | ⟨v, - | ⟨record, st⟩⟩ <;> rfl
  case allocClosure | call =>
    obtain ⟨n, hn, rfl⟩ := map_eq_ok h
    rw [countOf_eq_ok hn]
    rcases stack with - | ⟨v, st⟩ <;> rfl
  case label | goto =>
    obtain ⟨n, hn, rfl⟩ := map_eq_ok h
    rw [labelOf_eq_ok hn]
    rfl
  case branch =>
    obtain ⟨n, hn, rfl⟩ := map_eq_ok h
    rw [labelOf_eq_ok hn]
    rcases stack with - | ⟨- | - | - | - | -, st⟩ <;> rfl
  case allocRecord | collect =>
    cases h
    rfl
  case ret | dup | pop =>
    cases h
    rcases stack with - | ⟨v, st⟩ <;> rfl
  case neg | not =>
    cases h
    rcases stack with - | ⟨- | - | - | - | -, st⟩ <;> rfl
  case indexLoad | swap | add | eq =>
    cases h
    rcases stack with - | ⟨v, - | ⟨u, st⟩⟩ <;> rfl
  case indexStore =>
    cases h
    rcases stack with - | ⟨v, - | ⟨u, - | ⟨w, st⟩⟩⟩ <;> rfl
  case div =>
    cases h
    rcases stack with - | ⟨b | - | - | - | -, - | ⟨a | - | - | - | -, st⟩⟩
    case cons.int.cons.int =>
      change (if b = 0 then Effect.fault else .next (.int (a.sdiv b) :: st))
        = match (if b = 0 then none else some (Value.int (a.sdiv b))) with
          | some v => Effect.next (v :: st)
          | none => .fault
      split <;> rfl
    all_goals rfl
  case sub | mul | gt | geq | and | or =>
    cases h
    rcases stack with - | ⟨- | - | - | - | -, - | ⟨- | - | - | - | -, st⟩⟩ <;> rfl

/-- Loads and stores are of places that bytecode has names for, and binary operations are
not yet specialised. -/
def Regular : Operation → Prop
  | load (.temp _) | load .retval => False
  | store (.var _) | store (.global _) | store (.contents _) => True
  | store _ => False
  | binary op => op = .add ∨ op = .eq ∨ op.demands?.isSome = true
  | _ => True

/-- The operation of an instruction loads and stores places that bytecode has names for, and is not
specialised. -/
theorem regular_ofInstruction {operation : Operation}
    (h : ofInstruction f index i = .ok operation) :
  operation.Regular
  := by
  obtain ⟨op, arg⟩ := i
  cases op
  case add | eq | sub | mul | div | gt | geq | and | or =>
    cases h
    simp [Regular, BinOp.demands?]
  case allocRecord | indexLoad | indexStore | ret | neg | not | dup | swap | pop | collect =>
    cases h
    trivial
  all_goals
    obtain ⟨n, -, rfl⟩ := map_eq_ok h
    trivial

end Operation

end StackCompiler.IR
