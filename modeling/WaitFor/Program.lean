import WaitFor.CommandLine
import WaitFor.Scenario.Load
import WaitFor.Simulation

/-!
# The sample program

The program runs one scenario through a validation layer.  It is a function of its arguments and of
its surroundings: the environment, the files it may read, and the log.  Its result is how the
process ends and what it has written by then.

A scenario that cannot be loaded, like a violation that does not abort the process, gives status 1;
arguments that cannot be understood give status 2.

The log goes to the standard output too.  Which of its lines are shown, and how, is for its filter
to say (the variable `RUST_LOG`; without it, all but the details), so they are part of the
surroundings.  What the program does say is when there are any: none before a scenario was loaded,
and none after the process was aborted.
-/

namespace WaitFor

/-- How a process ends: with a status, or by abortion. -/
inductive Ending where
  | exited (status : UInt8)
  | aborted
deriving DecidableEq, Repr

/-- The lines that the log of a run shows before the program prints its result, and those that it
shows after. -/
structure RunLog where
  before : String := ""
  after : String := ""
deriving DecidableEq, Repr

/-- The log that shows nothing. -/
def RunLog.silent : RunLog where

/-- The end of a process with what it printed itself, what its log showed, and what it wrote to the
standard error. -/
structure Exit where
  ending : Ending
  printed : String := ""
  log : RunLog := .silent
  stderr : String := ""
deriving DecidableEq, Repr

/-- All that a process wrote to the standard output. -/
def Exit.stdout (exit : Exit) : String := exit.log.before ++ exit.printed ++ exit.log.after

/-- What the program cannot choose: the variables of the environment, the bytes of the files, and
the lines that the log shows of a run. -/
structure Surroundings where
  environment : String → Option String
  file : String → Except FileFault ByteArray
  log : RunLog := .silent

namespace Program

/-- The program's name and version. -/
def versionText : String := "eventlock-sample 0.1.0\n"

/-- The options of the program as they are written, each with what it does. -/
def optionRows : List (String × String) :=
  [("      --enable-checker",
    "Enable the checker regardless of ZEL_ENABLE_EVENTSDEADLOCK_CHECKER"),
   ("      --scenario <SCENARIO>",
    "Built-in scenario to run (chain, deadlock, undeclared-wait) [default: deadlock]"),
   ("      --scenario-file <SCENARIO_FILE>", "Run a scenario from a TOML file instead"),
   ("      --max-path-len <MAX_PATH_LEN>",
    "Maximum number of operations shown in a deadlock report"),
   ("      --no-abort", "Log violations and exit with status 1 instead of aborting"),
   ("  -h, --help", "Print help"),
   ("  -V, --version", "Print version")]

/-- The column in which an explanation starts, two spaces behind the longest option. -/
def explanationColumn : Nat := 39

/-- The line of an option, with its explanation in the second column. -/
def optionLine (option explanation : String) : String :=
  String.ofList (option.toList.rightpad explanationColumn ' ') ++ explanation ++ "\n"

/-- What is written when help is asked for, in short or at length. -/
def helpText : String :=
  "Drive event-gated operations through the event deadlock checker\n\n" ++
  "Usage: eventlock-sample [OPTIONS]\n\n" ++
  "Options:\n" ++
  String.join (optionRows.map fun row => optionLine row.1 row.2)

example : optionRows.all (fun row => row.1.length + 2 ≤ explanationColumn) ∧
    optionRows.any fun row => row.1.length + 2 = explanationColumn := by decide

/-- What is written when the arguments cannot be understood. -/
def misuseText : String :=
  "error: invalid arguments\n\nUsage: eventlock-sample [OPTIONS]\n\n" ++
  "For more information, try '--help'.\n"

/-- The built-in scenario that runs when no other one is asked for. -/
def defaultScenario : String := "deadlock"

/-- The scenario that the options ask for. -/
def loadScenario (options : RunOptions) (s : Surroundings) : Except LoadError Scenario :=
  match options.scenarioFile with
  | some path => Scenario.ofFile path (s.file path)
  | none => Scenario.ofName (options.scenario.getD defaultScenario)

/-- The settings of the layer: the environment's, overridden by the options. -/
def layerSettings (options : RunOptions) (s : Surroundings) : LayerSettings :=
  let settings := LayerSettings.ofEnvironment s.environment
  let settings := if options.enableMonitor then settings.withEnabled true else settings
  match options.maxPathLength with
  | some maxPathLength => settings.withMonitor { settings.monitor with maxPathLength }
  | none => settings

/-- A text behind a mark, with its later lines indented to stand below its first. -/
def hanging (mark text : String) : String :=
  let margin := List.replicate mark.length ' '
  mark ++ String.ofList (text.toList.flatMap fun c => if c = '\n' then c :: margin else [c])

example : hanging "  - " "a\n\nb" = "  - a\n    \n    b" := by decide

/-- An error with the errors that it came from, numbered if they are several. -/
def errorText (message : String) (causes : List String) : String :=
  let lines := match causes with
    | [] => []
    | [cause] => ["\nCaused by:", hanging "    " cause]
    | causes =>
      "\nCaused by:" ::
        causes.mapIdx fun i cause => hanging ("    " ++ Text.decimal i ++ ": ") cause
  "Error: " ++ "\n".intercalate (message :: lines) ++ "\n"

/-- What is written when a scenario cannot be loaded. -/
def loadErrorText (options : RunOptions) (e : LoadError) : String :=
  match options.scenarioFile with
  | some path => errorText ("loading scenario from " ++ path) e.messages
  | none => errorText e.message []

/-- What is written when a run met no violation. -/
def countsText (scenario : Scenario) (counts : RunCounts) : String :=
  scenario.name ++ ": " ++ Text.decimal counts.steps ++ " steps, " ++
    Text.decimal counts.created ++ " events, " ++ Text.decimal counts.appended ++ " operations\n"

/-- Runs a scenario on a fresh simulation without guests.  The first violation that is reported
aborts the process, unless the options say otherwise. -/
def runScenario (options : RunOptions) (settings : LayerSettings) (log : RunLog)
    (scenario : Scenario) : Exit :=
  let start : Simulation Empty := { layer := .fresh settings }
  let (result, final) := start.run scenario
  match options.noAbort, final.layer.reported with
  | false, violation :: _ =>
    { ending := .aborted, log := { log with after := "" }
      stderr := "ERROR: " ++ violation.message ++ "\n" }
  | _, _ =>
    match result with
    | .ok counts => { ending := .exited 0, printed := countsText scenario counts, log }
    | .error _ => { ending := .exited 1, log }

/-- Runs the program. -/
def run (arguments : List String) (s : Surroundings) : Exit :=
  match CommandLine.parse arguments with
  | .misuse => { ending := .exited 2, stderr := misuseText }
  | .help => { ending := .exited 0, printed := helpText }
  | .version => { ending := .exited 0, printed := versionText }
  | .run options =>
    match loadScenario options s with
    | .error e => { ending := .exited 1, stderr := loadErrorText options e }
    | .ok scenario => runScenario options (layerSettings options s) s.log scenario

end Program

end WaitFor
