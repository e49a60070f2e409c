import WaitFor.Program

/-!
# Entry point

Gathers what the program can see of its surroundings, runs it, and writes what it has to say.  No
log is kept.
-/

namespace WaitFor.Program

/-- The bytes of a file, or why they cannot be read. -/
def readFile (path : String) : IO (Except FileFault ByteArray) := do
  try
    return .ok (← IO.FS.readBinFile path)
  catch
    | .noFileOrDirectory .. => return .error .notFound
    | e => return .error (.other e.toString)

/-- The status of a process that aborts, as a shell tells it. -/
def abortStatus : UInt32 := 134

end WaitFor.Program

open WaitFor in
/-- Runs the program with the arguments and the environment of the process. -/
def main (arguments : List String) : IO UInt32 := do
  let enable ← IO.getEnv LayerSettings.enableVariable
  let maxPathLength ← IO.getEnv LayerSettings.maxPathLengthVariable
  let bytes ← match CommandLine.parse arguments with
    | .run { scenarioFile := some path, .. } => Program.readFile path
    | _ => pure (.error .notFound)
  let exit := Program.run arguments {
    environment := fun name =>
      if name = LayerSettings.enableVariable then enable
      else if name = LayerSettings.maxPathLengthVariable then maxPathLength
      else none
    file := fun _ => bytes }
  IO.print exit.stdout
  IO.eprint exit.stderr
  return match exit.ending with
    | .exited status => status.toUInt32
    | .aborted => Program.abortStatus
