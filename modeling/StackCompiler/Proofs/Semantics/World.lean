import StackCompiler.Proofs.Semantics.Value

/-!
# The world outside a function

A function acts on the world by requests to the runtime: it reads and writes globals and
closure cells, calls closures, makes and uses heap objects, and adds and compares values
whose types are not known.  A `Runtime` answers requests; it is a parameter of everything
that follows.  `Runtime.Typed` and `Runtime.Lawful` name what compiled code relies on.
-/

namespace StackCompiler

open IR (BinOp UnOp TypeSet)

/-- What a function may ask of the runtime. -/
inductive Request where
  | add (l r : Value)
  | equals (l r : Value)
  | readGlobal (n : Nat)
  | writeGlobal (n : Nat) (v : Value)
  | readCell (cell : Value)
  | writeCell (cell v : Value)
  | readFunction (n : Nat)
  | call (closure : Value) (args : List Value)
  | allocClosure (function : Value) (refs : List Value)
  | collect
  | allocRecord
  | fieldLoad (field : Nat) (record : Value)
  | fieldStore (field : Nat) (record v : Value)
  | indexLoad (record index : Value)
  | indexStore (record index v : Value)
  | throwUninitialized (name : Nat)
  deriving DecidableEq, Repr

/-- Whether a request may change the world.  Reads, addition and equality do not. -/
def Request.isEffect : Request → Bool
  | add _ _ | equals _ _ | readGlobal _ | readCell _ | readFunction _ => false
  | _ => true

/-- The requests of a sequence that may change the world. -/
def effects (trace : List Request) : List Request := trace.filter Request.isEffect

@[simp]
theorem effects_append (t u : List Request) :
  effects (t ++ u) = effects t ++ effects u
  := List.filter_append ..

/-- What a function runs in. -/
structure Runtime (World : Type) where
  /-- The answer to a request and the world after it; none when the request faults. -/
  serve : Request → World → Option (Value × World)
  /-- The closure cells of the activation. -/
  cell : Nat → Value
  /-- What an inline operation comes to on operands of types it is not made for. -/
  undefinedBinary : BinOp → Value → Value → Option Value
  /-- What a unary operation comes to on an operand of a type it is not made for. -/
  undefinedUnary : UnOp → Value → Option Value

namespace Runtime

variable {World : Type}

/-- The types of answers. -/
structure Typed (rt : Runtime World) : Prop where
  add_types : ∀ l r v w w', rt.serve (.add l r) w = some (v, w') →
    v.HasType (TypeSet.ints.union .strings)
  add_ints : ∀ a b v w w', rt.serve (.add (.int a) (.int b)) w = some (v, w') → v.HasType .ints
  equals_bool : ∀ l r v w w', rt.serve (.equals l r) w = some (v, w') → v.HasType .bools
  function_object : ∀ n v w w', rt.serve (.readFunction n) w = some (v, w') → v.HasType .objects
  cell_object : ∀ n, (rt.cell n).HasType .objects

/-- What compiled code relies on.  Requests that are no effects leave the world alone, a
location read directly after a write gives what was written, addition wraps integers
and joins strings, and equality compares what is not on the heap. -/
structure Lawful (rt : Runtime World) : Prop extends rt.Typed where
  world_eq : ∀ q v w w', q.isEffect = false → rt.serve q w = some (v, w') → w' = w
  global_written : ∀ n v u x w w' w'', rt.serve (.writeGlobal n v) w = some (u, w') →
    rt.serve (.readGlobal n) w' = some (x, w'') → x = v
  cell_written : ∀ n v u x w w' w'', rt.serve (.writeCell (rt.cell n) v) w = some (u, w') →
    rt.serve (.readCell (rt.cell n)) w' = some (x, w'') → x = v
  add_int : ∀ a b v w w', rt.serve (.add (.int a) (.int b)) w = some (v, w') → v = .int (a + b)
  add_string : ∀ s t v w w', rt.serve (.add (.string s) (.string t)) w = some (v, w') →
    v = .string (s ++ t)
  equals_scalar : ∀ l r v w w', l.isObject = false → r.isObject = false →
    rt.serve (.equals l r) w = some (v, w') → v = .bool (l = r)

/-- A runtime that adds and compares; every other request is a fault. -/
def arithmetic : Runtime Unit where
  serve
    | .add (.int a) (.int b), w => some (.int (a + b), w)
    | .add (.string s) (.string t), w => some (.string (s ++ t), w)
    | .equals l r, w => some (.bool (l = r), w)
    | _, _ => none
  cell n := .object n
  undefinedBinary _ _ _ := none
  undefinedUnary _ _ := none

/-- The runtime that only computes is lawful. -/
theorem lawful_arithmetic :
  arithmetic.Lawful
  := by
  refine ⟨⟨?_, ?_, ?_, ?_, ?_⟩, ?_, ?_, ?_, ?_, ?_, ?_⟩
  · intro l r v w w' h
    cases l <;> cases r <;> cases h <;> rfl
  · intro a b v w w' h
    cases h
    rfl
  · intro l r v w w' h
    cases h
    rfl
  · intro n v w w' h
    cases h
  · intro n
    rfl
  · intros
    rfl
  · intro n v u x w w' w'' h
    cases h
  · intro n v u x w w' w'' h
    cases h
  · intro a b v w w' h
    cases h
    rfl
  · intro s t v w w' h
    cases h
    rfl
  · intro l r v w w' _ _ h
    cases h
    rfl

end Runtime

/-! ### Operations with every operand -/

/-- What an inline operation comes to.  Division by zero faults; on types that the
operation is not made for, anything may happen. -/
def IR.BinOp.perform {World : Type} (rt : Runtime World) (op : BinOp) (l r : Value) : Option Value :=
  if op.accepts l r then op.compute? l r else rt.undefinedBinary op l r

/-- What a unary operation comes to. -/
def IR.UnOp.perform {World : Type} (rt : Runtime World) (op : UnOp) (v : Value) : Option Value :=
  if op.demands.admits v then op.compute? v else rt.undefinedUnary op v

/-- A binary operation that is computed inline gives the same by the runtime. -/
theorem IR.BinOp.perform_of_compute? {World : Type} (rt : Runtime World) {op : BinOp}
    {l r v : Value} (h : op.compute? l r = some v) :
  op.perform rt l r = some v
  := by
  have haccepts : op.accepts l r = true := (isSome_compute?_iff.mp (by rw [h]; rfl)).1
  unfold perform
  rw [if_pos haccepts, h]

/-- A unary operation that is computed inline gives the same by the runtime. -/
theorem IR.UnOp.perform_of_compute? {World : Type} (rt : Runtime World) {op : UnOp} {v w : Value}
    (h : op.compute? v = some w) :
  op.perform rt v = some w
  := by
  have hadmits : op.demands.admits v = true := by
    cases op <;> cases v <;> simp_all [compute?, demands, AssertKind.admits]
  unfold perform
  rw [if_pos hadmits, h]

/-- How a run ends: with a value, or by a fault at a position. -/
inductive Outcome (World : Type) where
  | returned (v : Value) (world : World) (trace : List Request)
  | failed (pos : Nat) (world : World) (trace : List Request)

/-- The requests answered before the end of a run. -/
def Outcome.trace {World : Type} : Outcome World → List Request
  | returned _ _ trace | failed _ _ trace => trace

end StackCompiler
