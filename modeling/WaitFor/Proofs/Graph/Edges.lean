import Mathlib.Data.List.Nodup
import Mathlib.Logic.Relation
import WaitFor.Graph.Insertion

/-! # Edges, paths and the fields of a graph

`Graph.Edge` and `Graph.Leads` are the relations that the theory of graphs speaks of.  The lemmas
on single operations say what each does to the fields of a graph, so that no later proof looks at
the array of nodes.
-/

namespace WaitFor.Graph

open Relation

variable {g : Graph} {a b x y : NodeId}

/-- There is an edge from `a` to `b`. -/
def Edge (g : Graph) (a b : NodeId) : Prop := b ∈ g.successors a

/-- Edges lead from `a` to `b`; every node leads to itself. -/
def Leads (g : Graph) : NodeId → NodeId → Prop := ReflTransGen g.Edge

/-- The edges, those out of one node beside each other. -/
def edges (g : Graph) : List (NodeId × NodeId) :=
  g.ids.flatMap fun a => (g.successors a).map (Prod.mk a)

/-- The nodes are numbered from zero. -/
theorem contains_iff : g.contains a = true ↔ a.index < g.nodeCount := by
  simp [contains, nodeCount]

/-- The ids are those of the allocated nodes. -/
theorem mem_ids : a ∈ g.ids ↔ g.contains a = true := by
  obtain ⟨i⟩ := a
  simp [ids, contains]

theorem nodup_ids (g : Graph) : g.ids.Nodup :=
  List.nodup_range.map fun _ _ h => congrArg NodeId.index h

/-- A node that was never allocated has no successors. -/
theorem successors_eq_nil (h : g.contains a = false) : g.successors a = [] := by
  simp_all [contains, successors]

/-- A node that was never allocated has no predecessors. -/
theorem predecessors_eq_nil (h : g.contains a = false) : g.predecessors a = [] := by
  simp_all [contains, predecessors]

/-- Edges start at allocated nodes. -/
theorem contains_of_mem_successors (h : b ∈ g.successors a) : g.contains a = true := by
  by_contra hc
  rw [successors_eq_nil (by simpa using hc)] at h
  exact List.not_mem_nil h

/-- A node that knows an edge into it is allocated. -/
theorem contains_of_mem_predecessors (h : a ∈ g.predecessors b) : g.contains b = true := by
  by_contra hc
  rw [predecessors_eq_nil (by simpa using hc)] at h
  exact List.not_mem_nil h

/-- An edge that can be asked for is one to an allocated node. -/
theorem hasEdge_iff :
    g.hasEdge a b = true ↔ g.contains b = true ∧ g.Edge a b := by
  have := @contains_of_mem_successors g a b
  simp only [hasEdge, Edge, Bool.and_eq_true, List.contains_iff_mem]
  tauto

/-- The list of edges has all of them. -/
theorem mem_edges : (a, b) ∈ g.edges ↔ g.Edge a b := by
  have := @contains_of_mem_successors g a b
  simp only [edges, List.mem_flatMap, List.mem_map, Prod.mk.injEq, mem_ids, Edge]
  constructor
  · rintro ⟨_, _, _, h, rfl, rfl⟩
    exact h
  · exact fun h => ⟨a, this h, b, h, rfl, rfl⟩

/-- Lists of distinct nodes, one beside each node, make a list of distinct pairs. -/
theorem nodup_pairs {beside : NodeId → List NodeId} (h : ∀ a, (beside a).Nodup) :
    (g.ids.flatMap fun a => (beside a).map (Prod.mk a)).Nodup := by
  refine List.nodup_flatMap.2 ⟨fun a _ => (h a).map fun _ _ e => (Prod.mk.inj e).2, ?_⟩
  refine (nodup_ids g).imp fun hne => ?_
  show List.Disjoint _ _
  rw [List.disjoint_left]
  simp only [List.mem_map]
  rintro _ ⟨_, _, rfl⟩ ⟨_, _, e⟩
  exact hne (Prod.mk.inj e).1.symm

/-- The list of edges has none twice if no node has a successor twice. -/
theorem nodup_edges (h : ∀ a, (g.successors a).Nodup) : g.edges.Nodup := nodup_pairs h

/-! ## Sorting -/

section sortBy

variable {ids : List NodeId}

/-- Sorting keeps the nodes. -/
theorem sortBy_perm (key : NodeId → Nat) (ids : List NodeId) : (sortBy key ids).Perm ids :=
  List.mergeSort_perm _ _

theorem mem_sortBy (key : NodeId → Nat) : x ∈ sortBy key ids ↔ x ∈ ids :=
  (sortBy_perm key ids).mem_iff

/-- Sorted nodes are in the order of their keys. -/
theorem pairwise_sortBy (key : NodeId → Nat) (ids : List NodeId) :
    (sortBy key ids).Pairwise fun x y => key x ≤ key y := by
  have h : (sortBy key ids).Pairwise fun x y => decide (key x ≤ key y) = true :=
    List.pairwise_mergeSort (fun _ _ _ => by simpa using Nat.le_trans)
      (fun _ _ => by simpa using Nat.le_total _ _) ids
  exact h.imp fun hxy => of_decide_eq_true hxy

end sortBy

/-! ## Paths -/

theorem Leads.refl (g : Graph) (a : NodeId) : g.Leads a a := ReflTransGen.refl

theorem Leads.trans {c : NodeId} (h₁ : g.Leads a b) (h₂ : g.Leads b c) : g.Leads a c :=
  ReflTransGen.trans h₁ h₂

theorem Leads.tail {c : NodeId} (h₁ : g.Leads a b) (h₂ : g.Edge b c) : g.Leads a c :=
  ReflTransGen.tail h₁ h₂

theorem Leads.head {c : NodeId} (h₁ : g.Edge a b) (h₂ : g.Leads b c) : g.Leads a c :=
  ReflTransGen.head h₁ h₂

/-- What leads to an allocated node is allocated. -/
theorem contains_of_leads_to (hb : g.contains b = true) (h : g.Leads a b) :
    g.contains a = true := by
  rcases ReflTransGen.cases_head h with rfl | ⟨c, hac, -⟩
  · exact hb
  · exact contains_of_mem_successors hac

/-! ## A new node -/

section addNode

@[simp]
theorem nodeCount_addNode (g : Graph) : g.addNode.2.nodeCount = g.nodeCount + 1 := by
  simp [addNode, nodeCount]

@[simp]
theorem addNode_fst (g : Graph) : g.addNode.1 = ⟨g.nodeCount⟩ := rfl

/-- A new node was not there before. -/
theorem not_contains_new (g : Graph) : ¬ g.contains g.addNode.1 = true := by
  simp [contains, nodeCount]

@[simp]
theorem edgeCount_addNode (g : Graph) : g.addNode.2.edgeCount = g.edgeCount := rfl

theorem ids_addNode (g : Graph) : g.addNode.2.ids = g.ids ++ [⟨g.nodeCount⟩] := by
  simp [addNode, ids, nodeCount, List.range_succ]

/-- A new node is the only one that is added. -/
theorem contains_addNode :
    g.addNode.2.contains a = true ↔ g.contains a = true ∨ a = ⟨g.nodeCount⟩ := by
  rw [← mem_ids, ids_addNode, List.mem_append, List.mem_singleton, mem_ids]

@[simp]
theorem successors_addNode (g : Graph) (a : NodeId) :
    g.addNode.2.successors a = g.successors a := by
  rcases Nat.lt_trichotomy a.index g.nodes.size with h | h | h
  · simp [addNode, successors, Array.getElem?_push_lt, h]
  · simp [addNode, successors, h]
  · simp [addNode, successors, Array.getElem?_push, Nat.ne_of_gt h, Nat.le_of_lt h]

@[simp]
theorem predecessors_addNode (g : Graph) (a : NodeId) :
    g.addNode.2.predecessors a = g.predecessors a := by
  rcases Nat.lt_trichotomy a.index g.nodes.size with h | h | h
  · simp [addNode, predecessors, Array.getElem?_push_lt, h]
  · simp [addNode, predecessors, h]
  · simp [addNode, predecessors, Array.getElem?_push, Nat.ne_of_gt h, Nat.le_of_lt h]

/-- A new node is the last one in the order. -/
theorem rank_addNode_self (g : Graph) : g.addNode.2.rank ⟨g.nodeCount⟩ = g.nodeCount := by
  simp [addNode, rank, nodeCount]

/-- A new node leaves the ranks of the others. -/
theorem rank_addNode_of_contains (h : g.contains a = true) :
    g.addNode.2.rank a = g.rank a := by
  have h : a.index < g.nodes.size := by simpa [contains] using h
  simp [addNode, rank, Array.getElem?_push, Nat.ne_of_lt h]

/-- A new node brings no edges. -/
@[simp]
theorem edge_addNode : g.addNode.2.Edge a b ↔ g.Edge a b := by
  simp [Edge]

/-- No edge leaves a node that was not allocated. -/
theorem not_edge_new (g : Graph) : ¬ g.Edge g.addNode.1 b :=
  fun h => g.not_contains_new (contains_of_mem_successors h)

end addNode

/-! ## Changes of one node -/

section setRank

variable {id : NodeId} {r : Nat}

@[simp]
theorem nodeCount_setRank : (g.setRank id r).nodeCount = g.nodeCount := by
  simp [setRank, update, nodeCount]

@[simp]
theorem contains_setRank : (g.setRank id r).contains a = g.contains a := by
  simp [setRank, update, contains]

@[simp]
theorem successors_setRank : (g.setRank id r).successors a = g.successors a := by
  simp only [setRank, update, successors, Array.getElem?_modify]
  split
  · cases g.nodes[a.index]? <;> rfl
  · rfl

@[simp]
theorem predecessors_setRank : (g.setRank id r).predecessors a = g.predecessors a := by
  simp only [setRank, update, predecessors, Array.getElem?_modify]
  split
  · cases g.nodes[a.index]? <;> rfl
  · rfl

theorem rank_setRank_self (h : g.contains id = true) : (g.setRank id r).rank id = r := by
  have h : id.index < g.nodes.size := by simpa [contains] using h
  rw [rank, setRank, update, Array.getElem?_modify, if_pos rfl, Array.getElem?_eq_getElem h]
  rfl

theorem rank_setRank_of_ne (h : a ≠ id) : (g.setRank id r).rank a = g.rank a := by
  have h : id.index ≠ a.index := fun e => h (by cases a; cases id; simp_all)
  simp [setRank, update, rank, Array.getElem?_modify, h]

end setRank

section link

@[simp]
theorem nodeCount_link : (g.link a b).nodeCount = g.nodeCount := by
  simp [link, update, nodeCount]

@[simp]
theorem contains_link : (g.link a b).contains x = g.contains x := by
  simp [link, update, contains]

@[simp]
theorem edgeCount_link : (g.link a b).edgeCount = g.edgeCount + 1 := rfl

@[simp]
theorem rank_link : (g.link a b).rank x = g.rank x := by
  simp only [link, update, rank, Array.getElem?_modify]
  split <;> split <;> cases g.nodes[x.index]? <;> rfl

theorem index_eq_iff : a.index = b.index ↔ a = b := by
  cases a; cases b; simp

/-- A new edge comes last among the successors of its source, unless it is there. -/
theorem successors_link (ha : g.contains a = true) :
    (g.link a b).successors x = if x = a then addLast (g.successors a) b else g.successors x := by
  have ha : a.index < g.nodes.size := by simpa [contains] using ha
  simp only [link, update, successors, Array.getElem?_modify, index_eq_iff, eq_comm (a := a)]
  by_cases hx : x = a
  · subst hx
    by_cases hb : b = x <;> simp [hb, ha]
  · by_cases hb : b = x <;> simp [hb, hx]
    cases g.nodes[x.index]? <;> rfl

/-- A new edge comes last among the predecessors of its target, unless it is there. -/
theorem predecessors_link (hb : g.contains b = true) :
    (g.link a b).predecessors x =
      if x = b then addLast (g.predecessors b) a else g.predecessors x := by
  have hb : b.index < g.nodes.size := by simpa [contains] using hb
  simp only [link, update, predecessors, Array.getElem?_modify, index_eq_iff, eq_comm (a := b)]
  by_cases hx : x = b
  · subst hx
    by_cases ha : a = x <;> simp [ha, hb]
  · by_cases ha : a = x <;> simp [ha, hx]
    cases g.nodes[x.index]? <;> rfl

theorem mem_addLast {ids : List NodeId} : x ∈ addLast ids a ↔ x ∈ ids ∨ x = a := by
  unfold addLast
  split
  · next h => exact ⟨.inl, fun hx => hx.elim id fun e => e ▸ h⟩
  · simp

/-- What is there already is not added again. -/
theorem nodup_addLast {ids : List NodeId} (h : ids.Nodup) : (addLast ids a).Nodup := by
  unfold addLast
  split
  · exact h
  · next ha => exact List.concat_eq_append ▸ h.concat ha

/-- A new edge is the only one that is added. -/
theorem edge_link (ha : g.contains a = true) :
    (g.link a b).Edge x y ↔ g.Edge x y ∨ (x = a ∧ y = b) := by
  rw [Edge, successors_link ha]
  split
  · next h => rw [mem_addLast, h]; simp [Edge]
  · next h => simp [Edge, h]

end link

end WaitFor.Graph
