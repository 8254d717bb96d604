import StackCompiler.IR.Pass.State

/-!
# Entry loads

On entry the values of variables are in memory only.  A variable is loaded at the top
of the function unless it is written before its first read in the straight code that
opens the function, where no jump can go around the write.
-/

namespace StackCompiler.IR

/-- What a scan of the instructions has seen of the variables. -/
structure EntryScan where
  /-- Whether no jump and no label has been met. -/
  straight : Bool := true
  written : IdSet := []
  /-- The variables read while not known to be written. -/
  needed : IdSet := []
  /-- The variables that are loaded already. -/
  loaded : IdSet := []

namespace EntryScan

/-- Takes in one instruction. -/
def visit (f : Function) (scan : EntryScan) (inst : Inst) : EntryScan :=
  match inst with
  | .forceLoad var => { scan with loaded := IdSet.add var scan.loaded }
  | .store dest _ =>
    if f.isVar dest && scan.straight then { scan with written := IdSet.add dest scan.written }
    else scan
  | .assign _ src =>
    if f.isVar src && !scan.written.contains src then
      { scan with needed := IdSet.add src scan.needed }
    else scan
  | .label _ | .jump _ | .shortJump _ | .condJump _ _ => { scan with straight := false }
  | _ => scan

end EntryScan

/-- The variables to load at the top of a function, in order. -/
def Function.entryLoads (f : Function) : List OperandId :=
  let scan := (f.live.map (·.2)).foldl (EntryScan.visit f) {}
  scan.needed.filter fun var => !scan.loaded.contains var

/-- Puts the load of a variable at the top. -/
def State.loadAtEntry (s : State) (var : OperandId) : Attempt State State := do
  let func ← Attempt.orStop s (s.func.insert 0 (.forceLoad var))
  return { s with func }

/-- Loads variables at the top of the function. -/
def loadVars : Pass := fun s => s.func.entryLoads.reverse.foldlM State.loadAtEntry s

end StackCompiler.IR
