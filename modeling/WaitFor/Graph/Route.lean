import WaitFor.Graph.Sweep
import WaitFor.Table

/-!
# Shortest paths

A breadth-first search from `a` gives each node that it meets a parent, the node from which it was
met first.  The path to `b` is read off by following parents from `b`.  The search passes over
nodes ranked after `b`, which lie on no path to it.
-/

namespace WaitFor

/-- The first nodes of a path, and whether it goes on after them. -/
structure Route where
  nodes : List NodeId
  truncated : Bool
deriving DecidableEq, Repr

/-- The first `maxLength` nodes of a path. -/
def Route.ofNodes (nodes : List NodeId) (maxLength : Nat) : Route where
  nodes := nodes.take maxLength
  truncated := maxLength < nodes.length

/-- The node from which each node was met first. -/
abbrev Parents : Type := Table NodeId NodeId

namespace Parents

/-- The nodes from `cursor` back to one without a parent, after at most `steps` steps. -/
def trace (parents : Parents) : (steps : Nat) → (cursor : NodeId) → List NodeId
  | 0, cursor => [cursor]
  | steps + 1, cursor =>
    match parents.get? cursor with
    | none => [cursor]
    | some parent => cursor :: parents.trace steps parent

/-- How many of the first `size` nodes have no parent yet. -/
def orphans (size : Nat) (parents : Parents) : Nat := unseen size parents.contains

/-- A node that had no parent and gets one leaves fewer without. -/
theorem orphans_insert_lt {size : Nat} {parents : Parents} {v : NodeId} (n : NodeId)
    (hv : v.index < size) (h : parents.contains v = false) :
    orphans size (parents.insert v n) < orphans size parents := by
  refine unseen_lt (fun x hx => ?_) hv h (by simp [Table.contains, Table.get?_insert])
  simp only [Table.contains, Table.get?_insert] at hx ⊢
  split <;> simp_all

end Parents

namespace Graph

/-- What one visited node adds to a breadth-first search: the parents with the newly met nodes among
them, these nodes in the order in which they were met, and whether the goal is one of them. -/
structure Discovery where
  parents : Parents
  met : List NodeId
  reached : Bool

/-- Gives the parent `n` to those of the nodes beside it that are met for the first time, up to the
goal `b`.  The start `a` gets no parent, and neither does a node ranked after `b`. -/
def discover (g : Graph) (a b n : NodeId) (parents : Parents) (met : List NodeId) :
    (beside : List NodeId) → Discovery
  | [] => ⟨parents, met, false⟩
  | v :: beside =>
    if v = a ∨ parents.contains v ∨ g.rank b < g.rank v then
      g.discover a b n parents met beside
    else if v = b then ⟨parents.insert v n, met ++ [v], true⟩
    else g.discover a b n (parents.insert v n) (met ++ [v]) beside

/-- Every node met takes a parent. -/
theorem orphans_discover_le (g : Graph) (a b n : NodeId) (parents : Parents) (met : List NodeId)
    {beside : List NodeId} {size : Nat} (hsize : ∀ v ∈ beside, v.index < size) :
    let d := g.discover a b n parents met beside
    d.parents.orphans size + d.met.length ≤ parents.orphans size + met.length := by
  induction beside generalizing parents met with
  | nil => simp [discover]
  | cons v beside ih =>
    obtain ⟨hv, hsize⟩ := List.forall_mem_cons.1 hsize
    -- A node met for the first time had no parent and takes one.
    have hnew : ¬(v = a ∨ parents.contains v ∨ g.rank b < g.rank v) →
        Parents.orphans size (parents.insert v n) + (met ++ [v]).length ≤
          parents.orphans size + met.length := by
      intro h
      have hparent : parents.contains v = false := by simpa using fun hc => h (Or.inr (Or.inl hc))
      have := Parents.orphans_insert_lt n hv hparent
      simp only [List.length_append, List.length_singleton]
      omega
    simp only [discover]
    split
    · exact ih parents met hsize
    · next h =>
      split
      · exact hnew h
      · exact Nat.le_trans (ih _ _ hsize) (hnew h)

/-- A number above the index of every node that stands beside another one. -/
def span (g : Graph) : Nat := ((g.ids.flatMap g.successors).map NodeId.index).max?.getD 0 + 1

/-- The span bounds the nodes beside any node, allocated or not. -/
theorem index_lt_span {g : Graph} {n v : NodeId} (h : v ∈ g.successors n) : v.index < g.span := by
  have hn : n ∈ g.ids := by
    by_cases hn : n.index < g.nodes.size
    · exact List.mem_map.2 ⟨n.index, List.mem_range.2 hn, rfl⟩
    · simp [successors, Array.getElem?_eq_none (Nat.not_lt.1 hn)] at h
  have hv : v.index ∈ (g.ids.flatMap g.successors).map NodeId.index :=
    List.mem_map.2 ⟨v, List.mem_flatMap.2 ⟨n, hn, h⟩, rfl⟩
  exact Nat.lt_succ_of_le (List.le_max?_getD_of_mem hv)

/-- Searches for `b` from the nodes in `queue`, up to the first node that meets it: the parents of
all nodes met, and whether `b` is among them. -/
def explore (g : Graph) (a b : NodeId) (parents : Parents) : (queue : List NodeId) → Parents × Bool
  | [] => (parents, false)
  | n :: queue =>
    let d := g.discover a b n parents [] (g.successors n)
    if d.reached then (d.parents, true) else g.explore a b d.parents (queue ++ d.met)
termination_by queue => parents.orphans g.span + queue.length
decreasing_by
  have := g.orphans_discover_le a b n parents [] fun _ (hv : _ ∈ g.successors n) => index_lt_span hv
  simp only [List.length_append, List.length_cons, List.length_nil] at this ⊢
  omega

/-- The parents from which a path from `a` to `b` can be read off, and whether there is a path; no
node is met on the path from a node to itself. -/
def parentsTo (g : Graph) (a b : NodeId) : Parents × Bool :=
  if a = b then (.empty, true) else g.explore a b .empty [a]

/-- A shortest path from `a` to `b`, cut to its first `maxLength` nodes; `none` if there is no
path. -/
def shortestPath? (g : Graph) (a b : NodeId) (maxLength : Nat) : Option Route :=
  if !g.contains a || !g.contains b then none
  else if g.rank b < g.rank a then none
  else
    let (parents, reached) := g.parentsTo a b
    if reached then some (.ofNodes (parents.trace parents.size b).reverse maxLength) else none

end Graph

end WaitFor
