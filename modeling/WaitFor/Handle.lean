import WaitFor.Text

/-!
# Handles and node ids

Events, event pools and command lists are known by opaque 64-bit handles.  A runtime may hand out
the handle of a destroyed event again.  Graph nodes are numbered from zero in the order of their
allocation, and a number is never given to a second node.
-/

namespace WaitFor

/-- Names an event while it is live, by the bit pattern that the runtime handed out. -/
structure EventHandle where
  bits : UInt64
deriving DecidableEq, Repr, Inhabited

/-- Names a pool that events are created in, by the bit pattern that the runtime handed out. -/
structure EventPoolHandle where
  bits : UInt64
deriving DecidableEq, Repr, Inhabited

/-- Names a command list that operations are appended to, by the bit pattern that the runtime handed
out. -/
structure CommandListHandle where
  bits : UInt64
deriving DecidableEq, Repr, Inhabited

/-- Names a graph node by the number of nodes that were allocated before it. -/
structure NodeId where
  index : Nat
deriving DecidableEq, Repr, Inhabited

/-- The event's handle as shown in diagnostics. -/
def EventHandle.text (h : EventHandle) : String := "Event(" ++ Text.hex h.bits.toNat ++ ")"

/-- The pool's handle as shown in diagnostics. -/
def EventPoolHandle.text (h : EventPoolHandle) : String :=
  "EventPool(" ++ Text.hex h.bits.toNat ++ ")"

/-- The command list's handle as shown in diagnostics. -/
def CommandListHandle.text (h : CommandListHandle) : String :=
  "CommandList(" ++ Text.hex h.bits.toNat ++ ")"

namespace NodeId

/-- The number of ids in the id space, which is that of 32-bit words. -/
def spaceSize : Nat := UInt32.size

/-- The id of the node at `index`, unless it lies outside the id space. -/
def ofIndex? (index : Nat) : Option NodeId :=
  if index < spaceSize then some ⟨index⟩ else none

/-- The id as shown in diagnostics. -/
def text (id : NodeId) : String := "n" ++ Text.decimal id.index

end NodeId

end WaitFor
