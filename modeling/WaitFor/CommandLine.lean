import WaitFor.Text

/-!
# Command line

The arguments of the program are read from left to right.  An option takes its value from behind an
equals sign or from the next argument, which then must not look like an option itself; nothing may
be given twice.  The first request for help or for the version is granted at once, unless something
before it is wrong.
-/

namespace WaitFor

/-- What the arguments ask a run to do: to turn the monitor on whatever the environment says, to
take a built-in scenario or one from a file, to show so many operations of a path in a report, and
to end with a status instead of aborting the process. -/
structure RunOptions where
  enableMonitor : Bool := false
  scenario : Option String := none
  scenarioFile : Option String := none
  maxPathLength : Option Nat := none
  noAbort : Bool := false
deriving DecidableEq, Repr

/-- What the arguments ask the program to do, if it is anything that it can do. -/
inductive Request where
  | run (options : RunOptions)
  | help
  | version
  | misuse
deriving DecidableEq, Repr

namespace CommandLine

/-- An option that takes a value. -/
inductive Valued where
  | scenario
  | scenarioFile
  | maxPathLength
deriving DecidableEq, Repr

/-- An argument on its own.  An option has its value with it if that stands in the same argument. -/
inductive Argument where
  | terminator
  | enableMonitor
  | noAbort
  | valued (option : Valued) (value : Option String)
  | help
  | version
  | unknown
deriving DecidableEq, Repr

/-- The option with a long name, with its value if it stands in the same argument; the other long
names take no value. -/
def Argument.ofLong (name : String) (value : Option String) : Argument :=
  if name = "scenario" then .valued .scenario value
  else if name = "scenario-file" then .valued .scenarioFile value
  else if name = "max-path-len" then .valued .maxPathLength value
  else if value.isSome then .unknown
  else if name = "enable-checker" then .enableMonitor
  else if name = "no-abort" then .noAbort
  else if name = "help" then .help
  else if name = "version" then .version
  else .unknown

/-- What an argument says on its own.  Of several short names in one argument the first is granted
at once. -/
def Argument.ofString (text : String) : Argument :=
  match text.toList with
  | ['-', '-'] => .terminator
  | '-' :: '-' :: long =>
    let name := String.ofList (long.takeWhile (· ≠ '='))
    match long.dropWhile (· ≠ '=') with
    | _ :: value => .ofLong name (some (String.ofList value))
    | [] => .ofLong name none
  | '-' :: 'h' :: _ => .help
  | '-' :: 'V' :: _ => .version
  | _ => .unknown

/-- Whether an argument can be the value of the option before it, since it looks like no option. -/
def canBeValue (text : String) : Bool :=
  match text.toList with
  | '-' :: _ :: _ => false
  | _ => true

/-- Stores the value of an option that was not given before.  A path must not be empty, and a length
must be a count. -/
def store (options : RunOptions) (option : Valued) (value : String) : Option RunOptions :=
  match option with
  | .scenario =>
    if options.scenario.isNone then some { options with scenario := some value } else none
  | .scenarioFile =>
    if options.scenarioFile.isNone ∧ value ≠ "" then
      some { options with scenarioFile := some value }
    else none
  | .maxPathLength =>
    match options.maxPathLength, Text.count? value.toList with
    | none, some n => some { options with maxPathLength := some n }
    | _, _ => none

/-- The request of complete options: a scenario comes by its name or from a file, not both. -/
def finish (options : RunOptions) : Request :=
  if options.scenario.isSome ∧ options.scenarioFile.isSome then .misuse else .run options

/-- Reads arguments behind those that `options` stands for. -/
def parseFrom (options : RunOptions) : List String → Request
  | [] => finish options
  | text :: rest =>
    match Argument.ofString text with
    | .terminator => if rest.isEmpty then finish options else .misuse
    | .enableMonitor =>
      if options.enableMonitor then .misuse
      else parseFrom { options with enableMonitor := true } rest
    | .noAbort =>
      if options.noAbort then .misuse
      else parseFrom { options with noAbort := true } rest
    | .valued option (some value) =>
      match store options option value with
      | some options => parseFrom options rest
      | none => .misuse
    | .valued option none =>
      match rest with
      | value :: rest =>
        if canBeValue value then
          match store options option value with
          | some options => parseFrom options rest
          | none => .misuse
        else .misuse
      | [] => .misuse
    | .help => .help
    | .version => .version
    | .unknown => .misuse

/-- The request that the arguments of the program make. -/
def parse (arguments : List String) : Request := parseFrom {} arguments

end CommandLine

end WaitFor
