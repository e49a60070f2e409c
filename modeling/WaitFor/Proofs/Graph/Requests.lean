import Mathlib.Data.List.Permutation
import WaitFor.Proofs.Graph.Audit
import WaitFor.Proofs.Graph.Insertion

/-! # Runs of a graph

A run serves requests on the graph without nodes.  Every graph that a run leads to is sound; the
main statement spells out what that means for those who use the graph.
-/

namespace WaitFor.Graph

open Relation

variable {g g' : Graph}

/-- What a graph can be asked to do: allocate a node, keep room for more nodes, or insert an
edge. -/
inductive Request where
  | addNode
  | reserve (additional : Nat)
  | insertEdge (a b : NodeId)
deriving DecidableEq, Repr

/-- What a request is answered: the new node, nothing, or whether the edge is there now. -/
inductive Answer where
  | node (id : NodeId)
  | done
  | present (inserted : Bool)
deriving DecidableEq, Repr

/-- Serves a request; `none` if there cannot be so much room. -/
def serve (g : Graph) : Request → Option (Answer × Graph)
  | .addNode => some (.node g.addNode.1, g.addNode.2)
  | .reserve additional => (g.reserve? additional).map fun g => (.done, g)
  | .insertEdge a b => some (.present (g.insertEdge a b).1, (g.insertEdge a b).2)

/-- Serves requests in order: the answers and the last graph. -/
def serveAll (g : Graph) : List Request → Option (List Answer × Graph)
  | [] => some ([], g)
  | request :: requests => do
    let (answer, g) ← g.serve request
    let (answers, g) ← g.serveAll requests
    return (answer :: answers, g)

/-- Keeping room changes nothing that can be seen. -/
theorem reserve?_eq_some {additional : Nat} (h : g.reserve? additional = some g') : g' = g := by
  rw [reserve?] at h
  split at h
  · exact (Option.some.inj h).symm
  · exact absurd h (by simp)

/-- One request keeps a graph sound. -/
theorem Sound.serve {request : Request} {answer : Answer} (hg : g.Sound)
    (h : g.serve request = some (answer, g')) : g'.Sound := by
  cases request with
  | addNode =>
    cases h
    exact hg.addNode
  | reserve additional =>
    obtain ⟨g'', hr, h⟩ := Option.map_eq_some_iff.1 h
    cases h
    exact reserve?_eq_some hr ▸ hg
  | insertEdge a b =>
    cases h
    exact hg.insertEdge a b

/-- Requests keep a graph sound. -/
theorem Sound.serveAll {requests : List Request} {answers : List Answer} (hg : g.Sound)
    (h : g.serveAll requests = some (answers, g')) : g'.Sound := by
  induction requests generalizing g answers with
  | nil =>
    cases h
    exact hg
  | cons request requests ih =>
    simp only [Graph.serveAll, Option.bind_eq_bind, Option.bind_eq_some_iff] at h
    obtain ⟨⟨answer, g₁⟩, h₁, ⟨answers', g₂⟩, h₂, h⟩ := h
    cases h
    exact ih (hg.serve h₁) h₂

/-- In every graph that requests lead to, the ranks number the nodes and go up along every edge,
both ends of an edge know it, no mark is left and the edges are counted right.  So the graph passes
its audit, has no cycle, and its order lists each node once, sources of edges before targets. -/
theorem invariant_of_serveAll {requests : List Request} {answers : List Answer}
    (h : Graph.empty.serveAll requests = some (answers, g)) :
    (g.ids.map g.rank).Perm (List.range g.nodeCount) ∧
      (∀ a b, g.hasEdge a b = true → g.rank a < g.rank b) ∧
      (∀ a b, b ∈ g.successors a ↔ a ∈ g.predecessors b) ∧
      g.marked = [] ∧
      (g.edges.Nodup ∧ (∀ a b, (a, b) ∈ g.edges ↔ g.hasEdge a b = true) ∧
        g.edges.length = g.edgeCount) ∧
      g.audit = none ∧
      (∀ a, ¬ TransGen (fun x y => g.hasEdge x y = true) a a) ∧
      g.order.Nodup ∧ (∀ a, a ∈ g.order ↔ g.contains a = true) ∧
      ∀ a b, g.hasEdge a b = true → g.order.idxOf a < g.order.idxOf b := by
  have hg : g.Sound := Sound.empty.serveAll h
  refine ⟨hg.ranks, fun a b h => hg.rank_lt (hg.hasEdge_iff.1 h),
    fun a b => hg.mem_predecessors.symm, hg.marked,
    ⟨nodup_edges hg.nodup_successors, ?_, hg.edgeCount⟩, hg.audit_eq_none, ?_, nodup_order g,
    fun a => mem_order, ?_⟩
  · intro a b
    rw [mem_edges, hg.hasEdge_iff]
  · intro a hcycle
    exact hg.acyclic a (TransGen.mono (fun x y h => hg.hasEdge_iff.1 h) a a hcycle)
  · intro a b h
    have h := hg.hasEdge_iff.1 h
    exact idxOf_order_lt (contains_of_mem_successors h) (hg.contains_right h) (hg.rank_lt h)

/-- A run with a reordering and a refusal: the graph passes its audit, and its order is the line
that the two edges make. -/
theorem invariant_of_serveAll_of_line :
    ∃ answers g,
      Graph.empty.serveAll [.addNode, .addNode, .addNode, .insertEdge ⟨2⟩ ⟨0⟩,
        .insertEdge ⟨0⟩ ⟨1⟩, .insertEdge ⟨1⟩ ⟨2⟩] = some (answers, g) ∧
      g.audit = none ∧ g.order.idxOf ⟨2⟩ < g.order.idxOf ⟨0⟩ := by
  have h : Graph.empty.serveAll [.addNode, .addNode, .addNode, .insertEdge ⟨2⟩ ⟨0⟩,
      .insertEdge ⟨0⟩ ⟨1⟩, .insertEdge ⟨1⟩ ⟨2⟩] =
      some ([.node ⟨0⟩, .node ⟨1⟩, .node ⟨2⟩, .present true, .present true, .present false],
        ⟨#[⟨1, [⟨2⟩], [⟨1⟩]⟩, ⟨2, [⟨0⟩], []⟩, ⟨0, [], [⟨0⟩]⟩], 2, []⟩) := by
    cbv
  obtain ⟨-, -, -, -, -, haudit, -, -, -, horder⟩ := invariant_of_serveAll h
  exact ⟨_, _, h, haudit, horder ⟨2⟩ ⟨0⟩ (by decide)⟩

end WaitFor.Graph
