import StackCompiler.IR.Allocation
import StackCompiler.IR.Lowering
import StackCompiler.IR.Optimizer
import StackCompiler.Machine.Codegen

/-!
# Compilation

The phases in order: lowering, optimization, register allocation and code generation.
-/

namespace StackCompiler

/-- What an attempt gives, without the state in which it stopped. -/
def Attempt.result {σ α : Type} : Attempt σ α → Except CompileError α
  | .ok value => .ok value
  | .error stopped => .error stopped.cause

/-- Compiles a function down to its intermediate representation with registers. -/
def compileIR (f : Bytecode.Function) (options : Options) : Except CompileError IR.Function := do
  options.validate
  let lowered ← IR.lower f
  let optimized ← Attempt.result (IR.optimize lowered options)
  let (allocated, _) ← Attempt.result (optimized.func.allocate options.pool)
  return allocated

/-- Compiles a function to machine code. -/
def compileNative (f : Bytecode.Function) (options : Options) (helpers : Machine.HelperTable) :
    Except CompileError Machine.NativeFunction := do
  Machine.generate (← compileIR f options) helpers

end StackCompiler
