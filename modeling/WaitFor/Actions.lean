import WaitFor.Table
import WaitFor.Observer

/-!
# Actions

The actions say which submitted operation claimed a node.  A node without a record belongs to an
event that is waited on and was not signaled yet.
-/

namespace WaitFor

/-- The description of the operation that claimed a node, and the event that it signals. -/
structure Action where
  description : String
  signal : Option EventHandle
deriving DecidableEq, Repr

/-- The claimed nodes, each with the operation that claimed it. -/
structure Actions where
  claims : Table NodeId Action := .empty
deriving DecidableEq, Repr

namespace Actions

/-- No actions. -/
def empty : Actions where

/-- What is shown for a node without a record. -/
def unrecorded : String := "<unrecorded>"

/-- Records the operation that claims a node, in the place of any earlier record. -/
def record (acts : Actions) (node : NodeId) (description : String) (signal : Option EventHandle) :
    Actions where
  claims := acts.claims.insert node ⟨description, signal⟩

/-- The record of a node. -/
def get? (acts : Actions) (node : NodeId) : Option Action := acts.claims.get? node

/-- The description of the operation at a node. -/
def textOf (acts : Actions) (node : NodeId) : String :=
  (acts.get? node).elim unrecorded Action.description

/-- The summary of a node for a report. -/
def summary (acts : Actions) (node : NodeId) : ActionSummary where
  node
  description := acts.textOf node
  signal := (acts.get? node).bind Action.signal

/-- The number of claimed nodes. -/
def size (acts : Actions) : Nat := acts.claims.size

/-- Whether no node was claimed. -/
def isEmpty (acts : Actions) : Bool := acts.claims.isEmpty

end Actions

end WaitFor
