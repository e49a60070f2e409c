import WaitFor.Graph.Basic
import WaitFor.Table

/-!
# Events and their nodes

An event is live from its creation to its destruction.  A *generation* of a handle starts when its
event is created or reset and ends when the event is created again, reset or destroyed.  Within a
generation the first reference to the event allocates a graph node, and every later reference finds
the same node.  The node and its edges outlive the generation.
-/

namespace WaitFor

/-- What a live event is bound to in its generation: to nothing as long as no operation has referred
to it, to a placeholder while operations wait on it and the one that signals it is still to come,
and from then on to the node of the operation that signals it. -/
inductive Binding where
  | unassigned
  | pending (node : NodeId)
  | bound (node : NodeId)
deriving DecidableEq, Repr

/-- The node of a binding, if it has one. -/
def Binding.node? : Binding → Option NodeId
  | unassigned => none
  | pending node => some node
  | bound node => some node

/-- The live events, each with its binding. -/
structure LiveEvents where
  bindings : Table EventHandle Binding := .empty
deriving DecidableEq, Repr

namespace LiveEvents

/-- No live events. -/
def empty : LiveEvents where

/-- The binding of an event, if it is live. -/
def binding? (live : LiveEvents) (h : EventHandle) : Option Binding := live.bindings.get? h

/-- Whether an event is live. -/
def contains (live : LiveEvents) (h : EventHandle) : Bool := live.bindings.contains h

/-- The number of live events. -/
def size (live : LiveEvents) : Nat := live.bindings.size

/-- Whether no event is live. -/
def isEmpty (live : LiveEvents) : Bool := live.bindings.isEmpty

/-- Gives an event another binding. -/
def bind (live : LiveEvents) (h : EventHandle) (b : Binding) : LiveEvents where
  bindings := live.bindings.insert h b

/-- Starts a generation of a created event, whether or not its handle was live; the earlier binding
comes first. -/
def create (live : LiveEvents) (h : EventHandle) : Option Binding × LiveEvents :=
  (live.binding? h, live.bind h .unassigned)

/-- Forgets a destroyed event; its last binding comes first. -/
def destroy (live : LiveEvents) (h : EventHandle) : Option Binding × LiveEvents :=
  (live.binding? h, { bindings := live.bindings.erase h })

/-- Starts a new generation of a live event; an event that is not live stays so.  Whether it is live
comes first. -/
def reset (live : LiveEvents) (h : EventHandle) : Bool × LiveEvents :=
  if live.contains h then (true, live.bind h .unassigned) else (false, live)

/-- The node of an event that an operation waits on, allocated if the generation has none; `none`
if the event is not live. -/
def waitNode? (live : LiveEvents) (h : EventHandle) (g : Graph) :
    Option (NodeId × LiveEvents × Graph) :=
  match live.binding? h with
  | none => none
  | some (.pending node) => some (node, live, g)
  | some (.bound node) => some (node, live, g)
  | some .unassigned =>
    let (node, g) := g.addNode
    some (node, live.bind h (.pending node), g)

/-- The node of an event that an operation signals, and whether this operation is the first of the
generation to signal it; `none` if the event is not live. -/
def signalNode? (live : LiveEvents) (h : EventHandle) (g : Graph) :
    Option (NodeId × Bool × LiveEvents × Graph) :=
  match live.binding? h with
  | none => none
  | some (.bound node) => some (node, false, live, g)
  | some (.pending node) => some (node, true, live.bind h (.bound node), g)
  | some .unassigned =>
    let (node, g) := g.addNode
    some (node, true, live.bind h (.bound node), g)

end LiveEvents

end WaitFor
