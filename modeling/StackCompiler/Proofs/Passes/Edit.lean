import StackCompiler.IR.Pass.ConstantFolding
import StackCompiler.IR.Pass.Specialization
import StackCompiler.IR.Pass.StoreForwarding
import StackCompiler.IR.Pass.Sweep
import StackCompiler.Proofs.Code.Compaction
import StackCompiler.Proofs.Typing.Flow

/-!
# Edits

Every pass is a sequence of small changes to a function.  `Edit f f'` lists them, each
with the reason for which the pass makes it; what passes keep true is proved change by
change.
-/

namespace StackCompiler.IR

open Bytecode (Constant)

namespace Function

/-! ### The results of single changes -/

/-- Two functions with the same code and operands, about which different things may be
known. -/
structure SameCode (f f' : Function) : Prop where
  code_eq : f'.code = f.code
  pending_eq : f'.pending = f.pending
  labels_eq : f'.labels = f.labels
  parameterCount_eq : f'.parameterCount = f.parameterCount
  size_eq : f'.operands.size = f.operands.size
  kind_eq : ∀ id, f'.kind id = f.kind id

/-- A literal in the place of an operation. -/
def foldedTo (f : Function) (pos : Nat) (dest : OperandId) (value : Constant) : Function :=
  (((f.newConstant value).2.addTypes dest (.ofConstant value)).modify dest fun o =>
    { o with constant := some value }).replace pos (.assign dest f.operands.size)

/-- An inline operation in the place of one by a helper. -/
def specialized (f : Function) (pos : Nat) (fast : BinOp) (dest lhs rhs : OperandId) : Function :=
  (f.addTypes dest fast.resultTypes).replace pos (.binary fast dest lhs rhs)

/-- One operand in the place of another. -/
def substitute (t s id : OperandId) : OperandId := if id = t then s else id

/-- A temp read in the place of its copy. -/
def renamed (f : Function) (t s : OperandId) : Function :=
  { f with code := f.code.map (·.mapUses (substitute t s)) }

/-- Two new temps that hold what another one holds. -/
def withCopies (f : Function) (src : OperandId) : Function := ((f.newCopy src).2.newCopy src).2

/-- A fork of the value in the place of its store. -/
def forked (f : Function) (pos : Nat) (src : OperandId) : Function :=
  (f.withCopies src).replace pos (.fork src f.operands.size (f.operands.size + 1))

/-- A stored value forwarded to the load after the store. -/
def forwarded (f : Function) (pos : Nat) (location src dest : OperandId) : Function :=
  (((f.forked pos src).inserted (pos + 1) (.store location f.operands.size)).replace (pos + 2)
    (.assign dest (f.operands.size + 1))).modify dest fun o => { o with loadedFrom := none }

/-- A jump back from a position to an earlier one. -/
def IsLoop (f : Function) (target jump : Nat) : Prop :=
  target < jump ∧ ∃ inst l, f.fetch jump = some inst ∧ inst.target? = some l ∧
    f.labels.at? l = some target

/-- A variable is read neither after a position nor in a loop that goes on after it. -/
structure UnreadAfter (f : Function) (x : OperandId) (pos : Nat) : Prop where
  load_le : ∀ p, f.LoadsAt p x → p ≤ pos
  loop_le : ∀ target jump p, f.IsLoop target jump → target ≤ p → p ≤ jump → f.LoadsAt p x →
    jump ≤ pos

/-- No operation computes with a temp. -/
def Idle (f : Function) (t : OperandId) : Prop :=
  ∀ pos inst, f.fetch pos = some inst → t ∈ inst.uses →
    (∃ kind, inst = .assertion kind t) ∨ ∃ d, inst = .assign d t

end Function

/-- One change that a pass of a round makes. -/
inductive Edit (f : Function) : Function → Prop where
  /-- Something is found out about operands. -/
  | annotate {f' : Function} (same : f.SameCode f') (hints : f.Hinted → f'.Hinted) : Edit f f'
  /-- An operation on literals gives way to its result. -/
  | fold {pos : Nat} {inst : Inst} {dest : OperandId} {sources : List OperandId} {value : Constant}
      (fetch : f.fetch pos = some inst)
      (result : f.foldInst? inst = some (dest, sources, .ok (some value))) :
    Edit f (f.foldedTo pos dest value)
  /-- An operation by a helper gives way to an inline one. -/
  | specialize {pos : Nat} {op fast : BinOp} {dest lhs rhs : OperandId}
      (fetch : f.fetch pos = some (.binary op dest lhs rhs))
      (known : op.specialized? (f.operand lhs) (f.operand rhs) = some fast) :
    Edit f (f.specialized pos fast dest lhs rhs)
  /-- A temp is read in the place of its copy. -/
  | rename {pos : Nat} {t s : OperandId} (fetch : f.fetch pos = some (.assign t s))
      (temp : f.isTemp s = true) :
    Edit f (f.renamed t s)
  /-- A definition goes that nothing reads. -/
  | erase {pos : Nat} {inst : Inst} (fetch : f.fetch pos = some inst) (pure : inst.isPure = true)
      (unread : ∀ t ∈ inst.defs, f.Unread t) :
    Edit f (f.remove pos)
  /-- An assertion goes that is proved, or on which no operation depends. -/
  | eraseAssertion {pos : Nat} {kind : AssertKind} {t : OperandId}
      (fetch : f.fetch pos = some (.assertion kind t))
      (needless : f.Idle t ∨ kind.holds (f.operand t) = true) :
    Edit f (f.remove pos)
  /-- A fork of which nothing reads one side becomes an assignment. -/
  | narrow {pos : Nat} {src kept dropped : OperandId}
      (fetch : f.fetch pos = some (.fork src kept dropped) ∨
        f.fetch pos = some (.fork src dropped kept))
      (unread : f.Unread dropped) :
    Edit f (f.replace pos (.assign kept src))
  /-- A store goes that nothing reads. -/
  | eraseStore {pos : Nat} {x s : OperandId} (fetch : f.fetch pos = some (.store x s))
      (var : f.isVar x = true) (unread : f.UnreadAfter x pos) :
    Edit f (f.remove pos)
  /-- A stored value is forwarded to the load after the store. -/
  | forward {pos : Nat} {location src dest : OperandId} (pending : f.pending = [])
      (pair : f.storeThenLoad? pos = some (location, src, dest)) :
    Edit f (f.forwarded pos location src dest)
  /-- The removed positions go. -/
  | compact : Edit f f.compact.2

end StackCompiler.IR
