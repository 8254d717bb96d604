import StackCompiler.CommandLine.Run
import StackCompiler.Main
import StackCompiler.Proofs.Allocation.Refinement
import StackCompiler.Proofs.Allocation.Separation
import StackCompiler.Proofs.Bytecode.Documents
import StackCompiler.Proofs.Bytecode.Parsing
import StackCompiler.Proofs.Lowering.Acceptance
import StackCompiler.Proofs.Lowering.Simulation
import StackCompiler.Proofs.Machine.Discipline
import StackCompiler.Proofs.Meaning.Elision
import StackCompiler.Proofs.Passes.DeadStores
import StackCompiler.Proofs.Typing.Truth
import StackCompiler.Proofs.Passes.Accesses
import StackCompiler.Proofs.Allocation.Pressure
import StackCompiler.Proofs.Passes.Initialization
import StackCompiler.Proofs.Passes.Elimination
import StackCompiler.Proofs.Typing.Leastness
import StackCompiler.Proofs.Code.Arena
