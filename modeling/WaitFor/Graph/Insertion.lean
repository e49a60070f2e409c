import WaitFor.Graph.Sweep

/-!
# Insertion of edges

An edge from a lower to a higher rank is inserted as it stands.  Before an edge `a → b` with
`rank b < rank a` the order is repaired:

* the nodes that can be reached from `b` below the rank of `a` are collected; if `a` is reached the
  edge would close a cycle and is refused;
* the nodes that reach `a` from above the rank of `b` are collected;
* the ranks of both sets are pooled and handed back in ascending order, first to the nodes that
  reach `a` and then to those reached from `b`, each set in its old order.

Nodes outside the two sets keep their ranks.
-/

namespace WaitFor.Graph

/-- Hands the ranks out to the nodes, one to one from the front. -/
def assignRanks (g : Graph) (ids : List NodeId) (ranks : List Nat) : Graph :=
  (ids.zip ranks).foldl (fun g e => g.setRank e.1 e.2) g

/-- Hands the pooled ranks of two sets back in ascending order, to those of `before` first, and
takes their marks off. -/
def redeal (g : Graph) (before after : List NodeId) : Graph :=
  let ids := sortBy g.rank before ++ sortBy g.rank after
  let pool := (ids.map g.rank).mergeSort
  (g.assignRanks ids pool).unmark ids

/-- Inserts the edge `a → b` unless it would close a cycle.  The answer is whether the edge is there
now, be it new or old; a cycle, a loop at one node or an unallocated node refuse it, and then the
graph is as before. -/
def insertEdge (g : Graph) (a b : NodeId) : Bool × Graph :=
  if !g.contains a || !g.contains b then (false, g)
  else if a = b then (false, g)
  else if (g.successors a).contains b then (true, g)
  else if g.rank b < g.rank a then
    -- Only the search from `b` can find a cycle, so it comes first.
    let after := g.descendantsBelow b (g.rank a)
    let g := { g with marked := after.marked }
    if after.complete then
      -- The marks of the first search stay, so that no node is in both sets.
      let before := g.ancestorsAbove a (g.rank b)
      let g := { g with marked := before.marked }
      (true, (g.redeal before.found after.found).link a b)
    else (false, g.unmark after.found)
  else (true, g.link a b)

end WaitFor.Graph
