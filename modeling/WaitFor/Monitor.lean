import WaitFor.Actions
import WaitFor.Graph.Insertion
import WaitFor.Graph.Route
import WaitFor.LiveEvents
import WaitFor.Observer

/-!
# The deadlock monitor

An operation that waits on an event waits for the operation that signals it.  The monitor keeps
these dependencies as edges between nodes, from the signaling to the waiting operation, and refuses
a wait that would close a cycle.

A submission is judged in this order: a wait on an event that is not live, a signal of an event that
is not live, then its waits one by one.  Nothing changes if an event is not live.  A refused wait
leaves the effect of the waits before it.
-/

namespace WaitFor

/-- How a monitor is set up: how many actions a report shows of the existing path at most, and for
how many nodes room is kept from the start. -/
structure MonitorSettings where
  maxPathLength : Nat := 10
  nodeCapacity : Nat := 0
deriving DecidableEq, Repr

/-- The state of a deadlock monitor: the live events, the dependencies between operations, and the
operations at the nodes. -/
structure Monitor where
  settings : MonitorSettings := {}
  live : LiveEvents := .empty
  graph : Graph := .empty
  actions : Actions := .empty
deriving DecidableEq, Repr

/-- The size of a monitor's state: how many events are live, and how many nodes were ever allocated,
how many edges lie between them and how many of them are claimed. -/
structure MonitorSize where
  liveEvents : Nat
  nodes : Nat
  edges : Nat
  actions : Nat
deriving DecidableEq, Repr

namespace Monitor

/-- The name that a deadlock monitor is registered under. -/
def registeredName : String := "events_deadlock"

/-- A monitor that was told nothing yet. -/
def fresh (settings : MonitorSettings) : Monitor where
  settings

/-- A monitor that was told nothing yet; `none` if there cannot be room for its nodes. -/
def ofSettings? (settings : MonitorSettings) : Option Monitor :=
  (Graph.withCapacity? settings.nodeCapacity).map fun graph => { settings, graph }

/-- Where there can be room for its nodes, a monitor starts out fresh. -/
theorem ofSettings?_eq (settings : MonitorSettings) :
    ofSettings? settings =
      if settings.nodeCapacity ≤ Graph.maxRoom then some (fresh settings) else none := by
  rw [ofSettings?, Graph.withCapacity?, Graph.reserve?, show Graph.empty.nodes.size = 0 from rfl,
    Nat.zero_add]
  split <;> rfl

/-- The size of the state. -/
def size (m : Monitor) : MonitorSize where
  liveEvents := m.live.size
  nodes := m.graph.nodeCount
  edges := m.graph.edgeCount
  actions := m.actions.size

/-- The binding of an event, if it is live. -/
def binding? (m : Monitor) (event : EventHandle) : Option Binding := m.live.binding? event

/-- The node of an event, if it is live and has one. -/
def nodeOf? (m : Monitor) (event : EventHandle) : Option NodeId :=
  (m.binding? event).bind Binding.node?

/-! ## Submissions -/

/-- The report of a wait on `event` that was refused between two nodes. -/
def deadlockReport (m : Monitor) (s : Submission) (event : EventHandle) (signaler waiter : NodeId) :
    DeadlockReport :=
  let summary := m.actions.summary signaler
  let path := (m.graph.shortestPath? waiter signaler m.settings.maxPathLength).getD ⟨[], false⟩
  { waitEvent := event
    signaler := { summary with signal := summary.signal <|> some event }
    waiter := ⟨waiter, s.text, s.signal⟩
    path := path.nodes.map m.actions.summary
    truncated := path.truncated }

/-- Inserts the dependencies of the operation at `waiter` on the given events, in order, up to the
first that is refused. -/
def insertWaits (s : Submission) (waiter : NodeId) (m : Monitor) :
    (waits : List EventHandle) → Verdict × Monitor
  | [] => (.ok (), m)
  | event :: waits =>
    match m.live.waitNode? event m.graph with
    | none => (.error (.unknownWaitEvent s.operation.entryPoint event), m)
    | some (signaler, live, graph) =>
      let (inserted, graph) := graph.insertEdge signaler waiter
      let m := { m with live, graph }
      if inserted then insertWaits s waiter m waits
      else (.error (.deadlock (m.deadlockReport s event signaler waiter)), m)

/-- The node of the operation that a submission appends, which the operation claims unless an
earlier one signaled the same event. -/
def claimNode (m : Monitor) (s : Submission) : Except Violation (NodeId × Monitor) :=
  match s.signal with
  | none =>
    let (waiter, graph) := m.graph.addNode
    .ok (waiter, { m with graph, actions := m.actions.record waiter s.text none })
  | some event =>
    match m.live.signalNode? event m.graph with
    | none => .error (.unknownSignalEvent s.operation.entryPoint event)
    | some (waiter, claimed, live, graph) =>
      let actions := if claimed then m.actions.record waiter s.text (some event) else m.actions
      .ok (waiter, { m with live, graph, actions })

/-- Judges a submission. -/
def submit (m : Monitor) (s : Submission) : Verdict × Monitor :=
  match s.waits.find? fun event => !m.live.contains event with
  | some event => (.error (.unknownWaitEvent s.operation.entryPoint event), m)
  | none =>
    match m.claimNode s with
    | .error violation => (.error violation, m)
    | .ok (waiter, m) => insertWaits s waiter m s.waits

/-! ## Notices -/

/-- What the monitor does with a notice, before anything is reported. -/
def step (m : Monitor) : Notice → Verdict × Monitor
  | .created event => (.ok (), { m with live := (m.live.create event).2 })
  | .destroyed event => (.ok (), { m with live := (m.live.destroy event).2 })
  | .hostReset event => (.ok (), { m with live := (m.live.reset event).2 })
  | .submitted submission => m.submit submission

/-- Every violation that the caller is told is reported. -/
instance : Observer Monitor where
  name _ := registeredName
  notify m notice :=
    let (verdict, state) := m.step notice
    let reported := match verdict with
      | .error violation => [violation]
      | .ok () => []
    { state, verdict, reported }

end Monitor

end WaitFor
