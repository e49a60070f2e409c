import WaitFor.Call

/-!
# Observers and violations

An observer is told of the life of events and of submitted operations, and answers each notice with
a verdict.  Beside the verdict it may report violations, which are told to whoever decides about
the fate of the process.

An unknown event is a usage error; a deadlock comes with the refused dependency and the existing
path that it would close to a cycle.
-/

namespace WaitFor

/-- A submitted operation as shown in diagnostics: its node, its description and, if known, the
event that it signals. -/
structure ActionSummary where
  node : NodeId
  description : String
  signal : Option EventHandle
deriving DecidableEq, Repr

/-- The action's node and description. -/
def ActionSummary.text (a : ActionSummary) : String :=
  "[" ++ a.node.text ++ "] " ++ a.description

/-- Why the wait on `waitEvent` was refused: the dependency of `waiter` on `signaler` would close a
cycle, since edges lead from `waiter` to `signaler`.  The first actions on that way are in `path`,
and `truncated` says whether there are more. -/
structure DeadlockReport where
  waitEvent : EventHandle
  signaler : ActionSummary
  waiter : ActionSummary
  path : List ActionSummary
  truncated : Bool
deriving DecidableEq, Repr

/-- The report as a text of several lines. -/
def DeadlockReport.text (r : DeadlockReport) : String :=
  "Waiting on " ++ r.waitEvent.text ++ " would create a cycle in the event dependency graph.\n" ++
    "  Refused dependency:\n" ++
    "    from: " ++ r.signaler.text ++ "\n" ++
    "    to:   " ++ r.waiter.text ++ "\n" ++
    "  Existing path:" ++
    String.join (r.path.map fun step => "\n    " ++ step.text) ++
    if r.truncated then "\n    ... (path truncated)" else ""

/-- A problem found by a monitor: the call `api` waits on an event or signals one that is not live,
or a wait would close a cycle. -/
inductive Violation where
  | unknownWaitEvent (api : String) (event : EventHandle)
  | unknownSignalEvent (api : String) (event : EventHandle)
  | deadlock (report : DeadlockReport)
deriving DecidableEq, Repr

namespace Violation

/-- The short name of the kind of violation. -/
def kind : Violation → String
  | unknownWaitEvent .. => "unknown_wait_event"
  | unknownSignalEvent .. => "unknown_signal_event"
  | deadlock _ => "deadlock"

/-- The violation as shown to a user. -/
def message : Violation → String
  | unknownWaitEvent api event =>
    api ++ " waits on " ++ event.text ++ ", which was never created or has been destroyed"
  | unknownSignalEvent api event =>
    api ++ " signals " ++ event.text ++ ", which was never created or has been destroyed"
  | deadlock report => "potential event deadlock\n" ++ report.text

end Violation

/-- The answer to a notice: accepted, or refused with a violation. -/
abbrev Verdict : Type := Except Violation Unit

/-- What an observer is told: that an event was created, or that an event is about to be destroyed
or reset from the host, or an operation to be appended. -/
inductive Notice where
  | created (event : EventHandle)
  | destroyed (event : EventHandle)
  | hostReset (event : EventHandle)
  | submitted (submission : Submission)
deriving DecidableEq, Repr

/-- The answer of an observer whose states are of type `σ`, with its next state and the violations
that it reports, in order. -/
structure Reply (σ : Type) where
  state : σ
  verdict : Verdict
  reported : List Violation := []

/-- A type of states of observers, which have a name to be registered under and answer notices. -/
class Observer (σ : Type) where
  name : σ → String
  notify : σ → Notice → Reply σ

instance : Observer Empty where
  name := Empty.elim
  notify s _ := s.elim

end WaitFor
