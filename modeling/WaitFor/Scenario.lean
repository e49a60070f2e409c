import WaitFor.Call
import WaitFor.Text

/-!
# Scenarios

A scenario is a named list of steps over named events.  Three scenarios are built in: a chain of
copies that wait for each other in turn, the same with the first copy waiting on the last, and a
copy that waits on an event that nobody created.
-/

namespace WaitFor

/-- One step of a scenario, in which events are known by their names. -/
inductive Step where
  | createEvent (name : String)
  | destroyEvent (name : String)
  | resetEvent (name : String)
  | append (operation : Operation) (signal : Option String := none) (waits : List String := [])
deriving DecidableEq, Repr

/-- A named list of steps, with a description of what it shows. -/
structure Scenario where
  name : String
  description : String := ""
  steps : List Step
deriving DecidableEq, Repr

namespace Scenario

/-- A copy of 1 KiB from the host to the device. -/
def upload : Operation := .memoryCopy 0xff0000000000 0x7f0000000000 1024

/-- Creates the events `events`, copies to the device once for each signal with its waits, and
destroys the events. -/
def copies (events : List String) (signals : List (String × List String)) : List Step :=
  events.map .createEvent ++ signals.map (fun s => .append upload (some s.1) s.2) ++
    events.map .destroyEvent

/-- Three copies, each waiting on the one before. -/
def chain : Scenario where
  name := "chain"
  description := "Linear chain of copies; no cycle."
  steps := copies ["e0", "e1", "e2"] [("e0", []), ("e1", ["e0"]), ("e2", ["e1"])]

/-- Three copies that wait on each other in a circle; the third closes it. -/
def deadlock : Scenario where
  name := "deadlock"
  description := "Copies e0 -> e1 -> e2 where the first waits on e2."
  steps := copies ["e0", "e1", "e2"] [("e0", ["e2"]), ("e1", ["e0"]), ("e2", ["e1"])]

/-- A copy that waits on an event that was never created. -/
def undeclaredWait : Scenario where
  name := "undeclared-wait"
  description := "Wait on an event handle that was never created."
  steps := copies ["e0"] [("e0", ["missing"])]

/-- The built-in scenario of a name, in any case; the last one has a short name too. -/
def builtIn? (name : String) : Option Scenario :=
  let name := Text.lower name
  if name = "chain" then some chain
  else if name = "deadlock" then some deadlock
  else if name = "undeclared-wait" ∨ name = "undeclared" then some undeclaredWait
  else none

end Scenario

end WaitFor
