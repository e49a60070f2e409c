import WaitFor.Layer
import WaitFor.Scenario

/-!
# Simulated runs

A simulation stands in for the runtime below the layer.  It keeps the events of scenarios by name,
hands out handles, and sends every step through the layer the way an intercepted call goes.  The
handle of a destroyed event is handed out again at the next creation, the last one first.  A step
that names an event nobody created invents a handle for it, without a call.
-/

namespace WaitFor

/-- How many steps a run completed, how many events it created and how many operations it appended.
-/
structure RunCounts where
  steps : Nat := 0
  created : Nat := 0
  appended : Nat := 0
deriving DecidableEq, Repr

/-- Counts a completed step. -/
def RunCounts.count (counts : RunCounts) : Step → RunCounts
  | .createEvent _ => { counts with steps := counts.steps + 1, created := counts.created + 1 }
  | .append .. => { counts with steps := counts.steps + 1, appended := counts.appended + 1 }
  | _ => { counts with steps := counts.steps + 1 }

/-- A layer that every call goes through, with the stand-in for the runtime below it: the handles of
the named events, those of destroyed events with the last destroyed one first, the next handle that
was never handed out, and the index of the next event in its pool. -/
structure Simulation (κ : Type) where
  layer : Layer κ
  handles : Table String EventHandle := .empty
  free : List EventHandle := []
  nextHandle : UInt64 := 0xe000
  nextIndex : UInt32 := 0
deriving DecidableEq

namespace Simulation

/-- The pool that events are created in. -/
def pool : EventPoolHandle := ⟨0x5000⟩

/-- The command list that operations are appended to. -/
def commandList : CommandListHandle := ⟨0xc000⟩

/-- The distance between two handles. -/
def handleStep : UInt64 := 0x40

variable {κ : Type}

/-- A handle that was never handed out. -/
def mintHandle (s : Simulation κ) : EventHandle × Simulation κ :=
  (⟨s.nextHandle⟩, { s with nextHandle := s.nextHandle + handleStep })

/-- The handle of the next created event. -/
def takeHandle (s : Simulation κ) : EventHandle × Simulation κ :=
  match s.free with
  | event :: free => (event, { s with free })
  | [] => s.mintHandle

/-- The handle of the event called `name`, invented if there is none. -/
def handleOf (s : Simulation κ) (name : String) : EventHandle × Simulation κ :=
  match s.handles.get? name with
  | some event => (event, s)
  | none =>
    let (event, s) := s.mintHandle
    (event, { s with handles := s.handles.insert name event })

/-- The handles of several events, resolved in order. -/
def handlesOf (s : Simulation κ) : List String → List EventHandle × Simulation κ
  | [] => ([], s)
  | name :: names =>
    let (event, s) := s.handleOf name
    let (events, s) := s.handlesOf names
    (event :: events, s)

/-- The handle of an optional event. -/
def optionalHandle (s : Simulation κ) : Option String → Option EventHandle × Simulation κ
  | none => (none, s)
  | some name =>
    let (event, s) := s.handleOf name
    (some event, s)

variable [Observer κ]

/-- Sends a call that the runtime runs with success. -/
def call (s : Simulation κ) (call : Call) : Verdict × Simulation κ :=
  let (verdict, layer) := s.layer.call call .success
  (verdict, { s with layer })

/-- Creates an event and calls it `name`. -/
def createEvent (s : Simulation κ) (name : String) : Verdict × Simulation κ :=
  -- The index is used up even if an observer refuses the call.
  let call := .eventCreate pool s.nextIndex
  let s := { s with nextIndex := s.nextIndex + 1 }
  match s.layer.beforeCall call with
  | (.error violation, layer) => (.error violation, { s with layer })
  | (.ok (), layer) =>
    let (event, s) := { s with layer }.takeHandle
    match s.layer.afterCall call (.created event) with
    | (.error violation, layer) => (.error violation, { s with layer })
    | (.ok (), layer) => (.ok (), { s with layer, handles := s.handles.insert name event })

/-- Destroys the event called `name`, if there is one. -/
def destroyEvent (s : Simulation κ) (name : String) : Verdict × Simulation κ :=
  match s.handles.get? name with
  | none => (.ok (), s)
  | some event =>
    match { s with handles := s.handles.erase name }.call (.eventDestroy event) with
    | (.ok (), s) => (.ok (), { s with free := event :: s.free })
    | refused => refused

/-- Resets the event called `name`. -/
def resetEvent (s : Simulation κ) (name : String) : Verdict × Simulation κ :=
  let (event, s) := s.handleOf name
  s.call (.eventHostReset event)

/-- Appends an operation; its signal event is resolved before its wait events. -/
def append (s : Simulation κ) (operation : Operation) (signal : Option String)
    (waits : List String) : Verdict × Simulation κ :=
  let (signal, s) := s.optionalHandle signal
  let (waits, s) := s.handlesOf waits
  s.call (.append { commandList, operation, signal, waits })

/-- Runs one step. -/
def step (s : Simulation κ) : Step → Verdict × Simulation κ
  | .createEvent name => s.createEvent name
  | .destroyEvent name => s.destroyEvent name
  | .resetEvent name => s.resetEvent name
  | .append operation signal waits => s.append operation signal waits

/-- Runs steps in order, up to the first violation. -/
def runSteps (s : Simulation κ) (counts : RunCounts) :
    List Step → Except Violation RunCounts × Simulation κ
  | [] => (.ok counts, s)
  | step :: steps =>
    match s.step step with
    | (.error violation, s) => (.error violation, s)
    | (.ok (), s) => s.runSteps (counts.count step) steps

/-- Runs a scenario up to its first violation. -/
def run (s : Simulation κ) (scenario : Scenario) : Except Violation RunCounts × Simulation κ :=
  s.runSteps {} scenario.steps

end Simulation

end WaitFor
