import WaitFor.Proofs.Graph.Edges

/-! # Sound graphs

`Graph.Sound` is the invariant of graphs: the ranks number the nodes, every edge goes up in rank
and is known at both ends, and no mark is left.  It holds of the graph without nodes and is kept by
a new node, by a new edge between ranks in order, and by any new ranks that respect the edges.
-/

namespace WaitFor.Graph

open Relation

variable {g g' : Graph} {a b x y : NodeId}

/-- The representation invariant of graphs.  The ranks are the numbers below the number of nodes,
and each edge goes up in rank; it is listed once at its source and once at its target; no search
left a mark. -/
structure Sound (g : Graph) : Prop where
  ranks : (g.ids.map g.rank).Perm (List.range g.nodeCount)
  rank_lt : ∀ {a b}, g.Edge a b → g.rank a < g.rank b
  mem_predecessors : ∀ {a b}, a ∈ g.predecessors b ↔ g.Edge a b
  nodup_successors : ∀ a, (g.successors a).Nodup
  nodup_predecessors : ∀ b, (g.predecessors b).Nodup
  marked : g.marked = []
  edgeCount : g.edges.length = g.edgeCount

namespace Sound

/-- No two nodes share a rank. -/
theorem rank_inj (hg : g.Sound) (ha : g.contains a = true) (hb : g.contains b = true)
    (h : g.rank a = g.rank b) : a = b := by
  have hnodup : (g.ids.map g.rank).Nodup := hg.ranks.nodup_iff.2 List.nodup_range
  exact List.inj_on_of_nodup_map hnodup (mem_ids.2 ha) (mem_ids.2 hb) h

/-- Edges end at allocated nodes. -/
theorem contains_right (hg : g.Sound) (h : g.Edge a b) : g.contains b = true :=
  contains_of_mem_predecessors (hg.mem_predecessors.2 h)

/-- All edges can be asked for. -/
theorem hasEdge_iff (hg : g.Sound) : g.hasEdge a b = true ↔ g.Edge a b := by
  rw [Graph.hasEdge_iff]
  exact ⟨fun h => h.2, fun h => ⟨hg.contains_right h, h⟩⟩

/-- Edges lead from allocated nodes to allocated nodes. -/
theorem contains_of_leads (hg : g.Sound) (h : g.Leads a b) (ha : g.contains a = true) :
    g.contains b = true := by
  rcases ReflTransGen.cases_tail h with rfl | ⟨c, _, hcb⟩
  · exact ha
  · exact hg.contains_right hcb

/-- Edges lead up in rank, unless they lead nowhere. -/
theorem rank_lt_of_leads (hg : g.Sound) (h : g.Leads a b) (hne : a ≠ b) :
    g.rank a < g.rank b := by
  induction h with
  | refl => exact absurd rfl hne
  | @tail x y _ hxy ih =>
    by_cases hax : a = x
    · exact hax ▸ hg.rank_lt hxy
    · exact Nat.lt_trans (ih hax) (hg.rank_lt hxy)

/-- Edges never lead down in rank. -/
theorem rank_le_of_leads (hg : g.Sound) (h : g.Leads a b) : g.rank a ≤ g.rank b := by
  by_cases hne : a = b
  · exact hne ▸ Nat.le_refl _
  · exact Nat.le_of_lt (hg.rank_lt_of_leads h hne)

/-- Edges do not lead there and back. -/
theorem leads_antisymm (hg : g.Sound) (h₁ : g.Leads a b) (h₂ : g.Leads b a) : a = b := by
  by_contra hne
  have := hg.rank_lt_of_leads h₁ hne
  have := hg.rank_le_of_leads h₂
  omega

/-- No search goes back along an edge. -/
theorem reaches_eq_false (hg : g.Sound) (h : g.Edge a b) : g.reaches b a = false := by
  have hlt := hg.rank_lt h
  have hne : b ≠ a := by
    rintro rfl
    exact Nat.lt_irrefl _ hlt
  rw [reaches, if_neg (by simp [contains_of_mem_successors h, hg.contains_right h]), if_neg hne,
    if_pos hlt]

/-- No edges lead from a node back to it. -/
theorem acyclic (hg : g.Sound) (a : NodeId) : ¬ TransGen g.Edge a a := by
  intro h
  obtain ⟨c, hac, hca⟩ := TransGen.head'_iff.1 h
  have := hg.rank_lt hac
  have := hg.rank_le_of_leads hca
  omega

/-- The graph without nodes is sound. -/
theorem empty : Sound empty where
  ranks := List.Perm.refl _
  rank_lt h := absurd h List.not_mem_nil
  mem_predecessors := ⟨fun h => absurd h List.not_mem_nil, fun h => absurd h List.not_mem_nil⟩
  nodup_successors _ := List.nodup_nil
  nodup_predecessors _ := List.nodup_nil
  marked := rfl
  edgeCount := rfl

/-- A new node is ranked last and has no edges. -/
theorem addNode (hg : g.Sound) : g.addNode.2.Sound where
  ranks := by
    have hold : g.ids.map g.addNode.2.rank = g.ids.map g.rank :=
      List.map_congr_left fun a ha => rank_addNode_of_contains (mem_ids.1 ha)
    rw [ids_addNode, List.map_append, hold, List.map_singleton, rank_addNode_self,
      nodeCount_addNode, List.range_succ]
    exact hg.ranks.append_right _
  rank_lt := by
    intro a b h
    rw [edge_addNode] at h
    rw [rank_addNode_of_contains (contains_of_mem_successors h),
      rank_addNode_of_contains (hg.contains_right h)]
    exact hg.rank_lt h
  mem_predecessors := by
    intro a b
    rw [predecessors_addNode, edge_addNode]
    exact hg.mem_predecessors
  nodup_successors := by simpa using hg.nodup_successors
  nodup_predecessors := by simpa using hg.nodup_predecessors
  marked := hg.marked
  edgeCount := by
    have hnew : g.successors ⟨g.nodeCount⟩ = [] :=
      successors_eq_nil (by simp [contains, nodeCount])
    simpa [edges, ids_addNode, hnew] using hg.edgeCount

/-- No successor comes twice after an edge is added. -/
theorem nodup_successors_link (hg : g.Sound) (ha : g.contains a = true) (x : NodeId) :
    ((g.link a b).successors x).Nodup := by
  rw [successors_link ha]
  split
  · exact nodup_addLast (hg.nodup_successors a)
  · exact hg.nodup_successors x

/-- An edge between ranks in order can be added as it stands. -/
theorem link (hg : g.Sound) (ha : g.contains a = true) (hb : g.contains b = true)
    (hnew : ¬ g.Edge a b) (hlt : g.rank a < g.rank b) : (g.link a b).Sound where
  ranks := by
    have hids : (g.link a b).ids.map (g.link a b).rank = g.ids.map g.rank := by
      simp only [ids, ← nodeCount.eq_1, nodeCount_link, List.map_map]
      exact List.map_congr_left fun i _ => rank_link
    rw [hids, nodeCount_link]
    exact hg.ranks
  rank_lt := by
    intro x y h
    rw [rank_link, rank_link]
    rcases (edge_link ha).1 h with h | ⟨rfl, rfl⟩
    · exact hg.rank_lt h
    · exact hlt
  mem_predecessors := by
    intro x y
    rw [edge_link ha, predecessors_link hb]
    split
    · next h => rw [h, mem_addLast, hg.mem_predecessors]; simp
    · next h => rw [hg.mem_predecessors]; simp [h]
  nodup_successors := hg.nodup_successors_link ha
  nodup_predecessors x := by
    rw [predecessors_link hb]
    split
    · exact nodup_addLast (hg.nodup_predecessors b)
    · exact hg.nodup_predecessors x
  marked := hg.marked
  edgeCount := by
    -- The edges are the old ones and `(a, b)`, in some order.
    have hnodup : (g.link a b).edges.Nodup := nodup_edges (hg.nodup_successors_link ha)
    have hnodup' : ((a, b) :: g.edges).Nodup :=
      List.nodup_cons.2 ⟨fun h => hnew (mem_edges.1 h), nodup_edges hg.nodup_successors⟩
    have hperm : (g.link a b).edges.Perm ((a, b) :: g.edges) := by
      refine (List.perm_ext_iff_of_nodup hnodup hnodup').2 ?_
      rintro ⟨x, y⟩
      rw [mem_edges, edge_link ha, List.mem_cons, mem_edges, Prod.mk.injEq, or_comm]
    rw [hperm.length_eq, List.length_cons, hg.edgeCount, edgeCount_link]

end Sound

/-! ## New ranks -/

/-- `g'` has the nodes and edges of `g`, each list of them in the same order. -/
structure SameEdges (g g' : Graph) : Prop where
  nodeCount : g'.nodeCount = g.nodeCount
  successors : g'.successors = g.successors
  predecessors : g'.predecessors = g.predecessors
  edgeCount : g'.edgeCount = g.edgeCount

/-- A graph has the same edges as itself. -/
theorem SameEdges.refl (g : Graph) : SameEdges g g := ⟨rfl, rfl, rfl, rfl⟩

/-- Graphs with the same edges have the same nodes. -/
theorem SameEdges.ids (h : SameEdges g g') : g'.ids = g.ids := by
  rw [Graph.ids, Graph.ids, ← Graph.nodeCount.eq_1, ← Graph.nodeCount.eq_1, h.nodeCount]

theorem SameEdges.contains (h : SameEdges g g') (a : NodeId) : g'.contains a = g.contains a := by
  rw [Bool.eq_iff_iff, contains_iff, contains_iff, h.nodeCount]

theorem SameEdges.edge (h : SameEdges g g') : g'.Edge = g.Edge := by
  funext x y
  rw [Edge, Edge, h.successors]

/-- New ranks for the nodes that go up along every edge. -/
theorem Sound.of_sameEdges (hg : g.Sound) (h : SameEdges g g')
    (hranks : (g.ids.map g'.rank).Perm (g.ids.map g.rank))
    (hlt : ∀ {a b}, g.Edge a b → g'.rank a < g'.rank b) (hmarked : g'.marked = []) : g'.Sound where
  ranks := by
    rw [h.ids, h.nodeCount]
    exact hranks.trans hg.ranks
  rank_lt := by
    rw [h.edge]
    exact hlt
  mem_predecessors := by
    rw [h.edge, h.predecessors]
    exact hg.mem_predecessors
  nodup_successors := by
    rw [h.successors]
    exact hg.nodup_successors
  nodup_predecessors := by
    rw [h.predecessors]
    exact hg.nodup_predecessors
  marked := hmarked
  edgeCount := by
    rw [edges, h.ids, h.successors, h.edgeCount]
    exact hg.edgeCount

end WaitFor.Graph
