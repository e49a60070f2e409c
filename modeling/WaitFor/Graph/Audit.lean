import WaitFor.Graph.Basic

/-!
# Audit of the representation

`Graph.audit` looks for the first fault in the way a graph is kept: ranks that are no permutation,
a mark that was left behind, an edge against the order, an edge that its target does not know, or a
wrong number of edges.
-/

namespace WaitFor

/-- A fault in the representation of a graph: ranks that two of `count` nodes share or that are out
of range, an edge that does not go up in rank, an edge that its target does not know, a node that a
search left marked, or a number of edges that is not what the graph says. -/
inductive AuditFault where
  | ranksNotPermutation (count : Nat)
  | edgeAgainstOrder (a b : NodeId) (rankA rankB : Nat)
  | unknownToTarget (a b : NodeId)
  | staleMark (node : NodeId)
  | wrongEdgeCount (cached actual : Nat)
deriving DecidableEq, Repr

/-- The fault as shown to a user. -/
def AuditFault.message : AuditFault → String
  | ranksNotPermutation count => "ranks are not a permutation of 0.." ++ Text.decimal count
  | edgeAgainstOrder a b rankA rankB =>
    "edge " ++ a.text ++ " -> " ++ b.text ++ " violates order (" ++ Text.decimal rankA ++ " >= " ++
      Text.decimal rankB ++ ")"
  | unknownToTarget a b =>
    "edge " ++ a.text ++ " -> " ++ b.text ++ " is missing from the predecessor set"
  | staleMark node => "node " ++ node.text ++ " still marked visited"
  | wrongEdgeCount cached actual =>
    "edge count " ++ Text.decimal cached ++ " does not match " ++ Text.decimal actual

namespace Graph

/-- Whether the ranks are distinct, not in `seen`, and below `count`. -/
def ranksDistinct (count : Nat) (seen : List Nat) : List Nat → Bool
  | [] => true
  | r :: ranks => r < count && r ∉ seen && ranksDistinct count (r :: seen) ranks

/-- The fault of the ranks, if they have one. -/
def rankFault (g : Graph) : Option AuditFault :=
  if ranksDistinct g.nodeCount [] (g.ids.map g.rank) then none
  else some (.ranksNotPermutation g.nodeCount)

/-- The fault of the edge `a → b`, if it has one. -/
def edgeFault (g : Graph) (a b : NodeId) : Option AuditFault :=
  if g.rank b ≤ g.rank a then some (.edgeAgainstOrder a b (g.rank a) (g.rank b))
  else if a ∈ g.predecessors b then none
  else some (.unknownToTarget a b)

/-- The first fault of a node or of an edge out of it. -/
def nodeFault (g : Graph) (id : NodeId) : Option AuditFault :=
  if id ∈ g.marked then some (.staleMark id) else (g.successors id).findSome? (g.edgeFault id)

/-- The fault of the number of edges, counted at both ends. -/
def countFault (g : Graph) : Option AuditFault :=
  let actual := (g.ids.flatMap g.successors).length
  let known := (g.ids.flatMap g.predecessors).length
  if actual = g.edgeCount ∧ known = g.edgeCount then none
  else some (.wrongEdgeCount g.edgeCount actual)

/-- The first fault of the graph, if it has one. -/
def audit (g : Graph) : Option AuditFault :=
  g.rankFault <|> g.ids.findSome? g.nodeFault <|> g.countFault

end Graph

end WaitFor
