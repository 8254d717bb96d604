import StackCompiler.CommandLine.Run

/-!
# The program

The command line on the files and streams of the machine.
-/

open StackCompiler

/-- Why an access failed, in the words of the system. -/
def accessFailure (e : IO.Error) : String :=
  match e with
  | .noFileOrDirectory _ code _ => s!"No such file or directory (os error {code.toNat})"
  | .permissionDenied _ code _ => s!"Permission denied (os error {code.toNat})"
  | .inappropriateType _ code _ => s!"Is a directory (os error {code.toNat})"
  | other => toString other

/-- The text of bytes, which must be valid. -/
def textOfBytes (bytes : ByteArray) : Except String String :=
  match String.fromUTF8? bytes with
  | some text => .ok text
  | none => .error "stream did not contain valid UTF-8"

/-- An access to the machine; its failure as a text. -/
def guarded {α : Type} (action : IO α) : IO (Except String α) := do
  match ← action.toBaseIO with
  | .ok value => return .ok value
  | .error e => return .error (accessFailure e)

/-- All bytes of a stream. -/
partial def drain (stream : IO.FS.Stream) (bytes : ByteArray) : IO ByteArray := do
  let chunk ← stream.read 65536
  if chunk.isEmpty then return bytes else drain stream (bytes ++ chunk)

/-- The files and streams of the machine. -/
def machine : CommandLine.Host IO where
  contents file := return (← guarded (IO.FS.readBinFile file)).bind textOfBytes
  input := return (← guarded (do drain (← IO.getStdin) .empty)).bind textOfBytes
  save file bytes := guarded (IO.FS.writeBinFile file ⟨bytes.toArray⟩)

def main (args : List String) : IO UInt32 := do
  let outcome ← CommandLine.run machine args
  (← IO.getStdout).write ⟨outcome.stdout.toArray⟩
  (← IO.getStderr).putStr outcome.stderr
  return outcome.exitCode.toUInt32
