import WaitFor.Handle

/-!
# Dependency graphs

A `Graph` holds directed edges between numbered nodes.  Every node has a rank, its place in an
order in which each edge goes from a lower to a higher rank, and the nodes on either side of its
edges in the order in which the edges came.  Nodes are never removed.

`Graph.insertEdge`, in `WaitFor.Graph.Insertion`, is the only way to add an edge; the functions
here read the graph or change one field of it.  Functions on a node that was never allocated see
no edges and rank zero.
-/

namespace WaitFor

/-- What the graph keeps for one node: its place in the maintained order, which no other node has,
and the sources and targets of the edges at it, oldest first, each once. -/
structure Node where
  rank : Nat
  ins : List NodeId := []
  outs : List NodeId := []
deriving DecidableEq, Repr

/-- A directed graph with an order on its nodes, each of which stands at its own index.  The marked
nodes are those that a search under way has met; there are none between two insertions. -/
structure Graph where
  nodes : Array Node := #[]
  edgeCount : Nat := 0
  marked : List NodeId := []
deriving DecidableEq, Repr

namespace Graph

/-- The graph without nodes. -/
def empty : Graph where

instance : Inhabited Graph := ⟨empty⟩

/-- The number of nodes ever allocated. -/
def nodeCount (g : Graph) : Nat := g.nodes.size

/-- Whether no node was allocated. -/
def isEmpty (g : Graph) : Bool := g.nodes.isEmpty

/-- Whether `id` names an allocated node. -/
def contains (g : Graph) (id : NodeId) : Bool := id.index < g.nodes.size

/-- The allocated nodes in the order of their allocation. -/
def ids (g : Graph) : List NodeId := (List.range g.nodes.size).map NodeId.mk

/-- The rank of a node. -/
def rank (g : Graph) (id : NodeId) : Nat := (g.nodes[id.index]?).elim 0 Node.rank

/-- The targets of the edges out of a node, oldest first. -/
def successors (g : Graph) (id : NodeId) : List NodeId := (g.nodes[id.index]?).elim [] Node.outs

/-- The sources of the edges into a node, oldest first. -/
def predecessors (g : Graph) (id : NodeId) : List NodeId := (g.nodes[id.index]?).elim [] Node.ins

/-- Whether there is an edge from `a` to `b`. -/
def hasEdge (g : Graph) (a b : NodeId) : Bool :=
  g.contains a && g.contains b && (g.successors a).contains b

/-- The nodes sorted by the key `key`. -/
def sortBy (key : NodeId → Nat) (ids : List NodeId) : List NodeId :=
  ids.mergeSort fun a b => decide (key a ≤ key b)

/-- All nodes in the maintained order. -/
def order (g : Graph) : List NodeId := sortBy g.rank g.ids

/-! ## Nodes -/

/-- Allocates the next node, placed last in the order. -/
def addNode (g : Graph) : NodeId × Graph :=
  (⟨g.nodes.size⟩, { g with nodes := g.nodes.push { rank := g.nodes.size } })

/-- The most nodes that room can be kept for: at 160 bytes a node, they fill half of a 64-bit
address space. -/
def maxRoom : Nat := 0x7fffffffffffffff / 160

/-- Keeps room for `additional` more nodes, which changes nothing that can be seen; `none` if there
cannot be so much room. -/
def reserve? (g : Graph) (additional : Nat) : Option Graph :=
  if g.nodes.size + additional ≤ maxRoom then some g else none

/-- The graph without nodes, with room for `capacity` of them. -/
def withCapacity? (capacity : Nat) : Option Graph := empty.reserve? capacity

/-! ## Changes of one field -/

/-- Changes what is kept for one node. -/
def update (g : Graph) (id : NodeId) (f : Node → Node) : Graph :=
  { g with nodes := g.nodes.modify id.index f }

/-- Gives a node another rank. -/
def setRank (g : Graph) (id : NodeId) (rank : Nat) : Graph :=
  g.update id fun node => { node with rank }

/-- Adds an element at the end of a list, unless it is there already. -/
def addLast (ids : List NodeId) (id : NodeId) : List NodeId :=
  if id ∈ ids then ids else ids ++ [id]

/-- Adds the edge from `a` to `b`, whatever their ranks. -/
def link (g : Graph) (a b : NodeId) : Graph :=
  let g := g.update a fun node => { node with outs := addLast node.outs b }
  let g := g.update b fun node => { node with ins := addLast node.ins a }
  { g with edgeCount := g.edgeCount + 1 }

/-- Takes the marks off the given nodes. -/
def unmark (g : Graph) (ids : List NodeId) : Graph :=
  { g with marked := g.marked.filter fun id => id ∉ ids }

end Graph

end WaitFor
