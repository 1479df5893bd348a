import Indicial.Command.Basic

/-!
# The command line

The commands on the files, the standard output and the standard error of the machine.
-/

namespace Indicial.Command

/-- Why the machine refuses an operation on a file. -/
def failureReason : IO.Error → String
  | .noFileOrDirectory .. => "no such file or directory"
  | .permissionDenied .. => "permission denied"
  | .inappropriateType .. => "is a directory"
  | e => toString e

/-- The path of a file as the machine takes it. -/
def machinePath (path : Bytes) : String := (String.fromUTF8? ⟨path.toArray⟩).getD ""

/-- Runs an operation on a file; its failure is a problem that names the file. -/
def attempt {α : Type} (operation : String) (path : Bytes) (action : IO α) :
    IO (Except Problem α) := do
  match ← action.toBaseIO with
  | .ok a => return .ok a
  | .error e => return .error (.file operation path (failureReason e))

/-- The file system and the standard output of the machine. -/
def machine : Surroundings IO where
  read path := attempt "open" path do
    return (← IO.FS.readBinFile (machinePath path)).data.toList
  write path data := attempt "open" path do
    IO.FS.writeBinFile (machinePath path) ⟨data.toArray⟩
  makeDirectory path := attempt "mkdir" path do
    IO.FS.createDirAll (machinePath path)
  print text := do
    (← IO.getStdout).write ⟨text.toArray⟩

end Indicial.Command

/-- Runs a command line. The exit code is 1 after an error, which is reported on standard error. -/
def main (args : List String) : IO UInt32 := do
  let outcome ← Indicial.Command.execute Indicial.Command.machine (args.map Indicial.Bytes.ofString)
  match outcome with
  | .ok () => return 0
  | .error e => do
    (← IO.getStderr).write ⟨(Indicial.Bytes.ofString "Error: " ++ e.message ++ [10]).toArray⟩
    return 1
