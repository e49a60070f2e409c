import WaitFor.Proofs.Chains
import WaitFor.Proofs.Graph.Requests

/-! # Graphs against plain digraphs

A `Digraph` is what the requests of a run amount to without ranks, marks and searches: a number of
nodes and the accepted edges in the order of their acceptance.  A graph answers every run of
requests as the digraph does, and `Graph.insertEdge` admits an edge exactly if the accepted edges
do not lead back.
-/

namespace WaitFor

open Relation

/-- A directed graph without an order on its nodes: how many nodes there are, and the edges in the
order of their acceptance, each once. -/
structure Digraph where
  nodeCount : Nat := 0
  edges : List (NodeId × NodeId) := []

namespace Digraph

variable {d : Digraph} {a b x y : NodeId}

/-- The accepted edges lead from `a` to `b`. -/
def Leads (d : Digraph) : NodeId → NodeId → Prop := Chains d.edges

/-- An edge is accepted if it joins two different nodes and its target does not lead to its
source. -/
def Admits (d : Digraph) (a b : NodeId) : Prop :=
  a.index < d.nodeCount ∧ b.index < d.nodeCount ∧ a ≠ b ∧ ¬ d.Leads b a

instance (d : Digraph) (a b : NodeId) : Decidable (d.Leads a b) := Chains.decide d.edges a b

instance (d : Digraph) (a b : NodeId) : Decidable (d.Admits a b) :=
  inferInstanceAs (Decidable (_ ∧ _))

/-- The targets of the edges out of a node, oldest first. -/
def successors (d : Digraph) (a : NodeId) : List NodeId :=
  (d.edges.filter fun e => e.1 = a).map Prod.snd

/-- The sources of the edges into a node, oldest first. -/
def predecessors (d : Digraph) (b : NodeId) : List NodeId :=
  (d.edges.filter fun e => e.2 = b).map Prod.fst

/-- Adds an accepted edge last, unless it is there already. -/
def accept (d : Digraph) (a b : NodeId) : Digraph :=
  if (a, b) ∈ d.edges then d else { d with edges := d.edges ++ [(a, b)] }

/-- Serves a request. -/
def serve (d : Digraph) : Graph.Request → Graph.Answer × Digraph
  | .addNode => (.node ⟨d.nodeCount⟩, { d with nodeCount := d.nodeCount + 1 })
  | .reserve _ => (.done, d)
  | .insertEdge a b => if d.Admits a b then (.present true, d.accept a b) else (.present false, d)

/-- Serves requests in order: the answers and the last digraph. -/
def serveAll (d : Digraph) : List Graph.Request → List Graph.Answer × Digraph
  | [] => ([], d)
  | request :: requests =>
    let (answer, d) := d.serve request
    let (answers, d) := d.serveAll requests
    (answer :: answers, d)

/-- The successors are the targets of the edges out of a node. -/
theorem mem_successors : b ∈ d.successors a ↔ (a, b) ∈ d.edges := by
  simp only [successors, List.mem_map, List.mem_filter, decide_eq_true_eq]
  constructor
  · rintro ⟨⟨x, y⟩, ⟨h, rfl⟩, rfl⟩
    exact h
  · exact fun h => ⟨(a, b), ⟨h, rfl⟩, rfl⟩

/-- A new edge comes last among the successors of its source. -/
theorem successors_append :
    ({ d with edges := d.edges ++ [(a, b)] } : Digraph).successors x =
      if x = a then d.successors a ++ [b] else d.successors x := by
  by_cases h : x = a
  · simp [successors, h]
  · simp [successors, h, Ne.symm h]

/-- A new edge comes last among the predecessors of its target. -/
theorem predecessors_append :
    ({ d with edges := d.edges ++ [(a, b)] } : Digraph).predecessors x =
      if x = b then d.predecessors b ++ [a] else d.predecessors x := by
  by_cases h : x = b
  · simp [predecessors, h]
  · simp [predecessors, h, Ne.symm h]

/-- An accepted edge is there afterwards, with those that were there before. -/
theorem mem_edges_accept : (x, y) ∈ (d.accept a b).edges ↔ (x, y) ∈ d.edges ∨ x = a ∧ y = b := by
  rw [accept]
  split
  · next h => exact ⟨.inl, fun hxy => hxy.elim id fun ⟨hx, hy⟩ => hx ▸ hy ▸ h⟩
  · rw [List.mem_append, List.mem_singleton, Prod.mk.injEq]

end Digraph

namespace Graph

variable {g g' : Graph} {d : Digraph} {a b x y : NodeId}

/-- The graph has the nodes and edges of the digraph, in the order of their acceptance at both
ends. -/
structure Depicts (g : Graph) (d : Digraph) : Prop where
  nodeCount : g.nodeCount = d.nodeCount
  successors : g.successors = d.successors
  predecessors : g.predecessors = d.predecessors
  edgeCount : g.edgeCount = d.edges.length

namespace Depicts

/-- The empty graph is depicted by the empty digraph. -/
theorem empty : Depicts .empty {} where
  nodeCount := rfl
  successors := rfl
  predecessors := rfl
  edgeCount := rfl

/-- A graph has the edges of its digraph. -/
theorem edge (h : g.Depicts d) : g.Edge a b ↔ (a, b) ∈ d.edges := by
  rw [Edge, h.successors, Digraph.mem_successors]

/-- A graph admits the edges that its digraph admits. -/
theorem admits (h : g.Depicts d) : g.Admits a b ↔ d.Admits a b := by
  have hleads : g.Leads = d.Leads := by
    have : g.Edge = fun x y => (x, y) ∈ d.edges := by
      funext x y
      exact propext h.edge
    rw [Leads, Digraph.Leads, Chains, this]
  rw [Admits, Digraph.Admits, contains_iff, contains_iff, h.nodeCount, hleads]

/-- Ranks and marks do not show in the digraph. -/
theorem of_sameEdges (h : g.Depicts d) (hsame : SameEdges g g') : g'.Depicts d where
  nodeCount := hsame.nodeCount.trans h.nodeCount
  successors := hsame.successors.trans h.successors
  predecessors := hsame.predecessors.trans h.predecessors
  edgeCount := hsame.edgeCount.trans h.edgeCount

/-- A new node is new in the digraph too. -/
theorem addNode (h : g.Depicts d) :
    g.addNode.2.Depicts { d with nodeCount := d.nodeCount + 1 } where
  nodeCount := by rw [nodeCount_addNode, h.nodeCount]
  successors := (funext fun x => successors_addNode g x).trans h.successors
  predecessors := (funext fun x => predecessors_addNode g x).trans h.predecessors
  edgeCount := h.edgeCount

/-- A new edge stands last at both of its ends. -/
theorem link (h : g.Depicts d) (hg : g.Sound) (ha : g.contains a = true)
    (hb : g.contains b = true) (hnew : ¬ g.Edge a b) : (g.link a b).Depicts (d.accept a b) := by
  have hmem : (a, b) ∉ d.edges := fun hm => hnew (h.edge.2 hm)
  rw [Digraph.accept, if_neg hmem]
  refine ⟨?_, ?_, ?_, ?_⟩
  · rw [nodeCount_link, h.nodeCount]
  · funext x
    have hsucc : b ∉ g.successors a := hnew
    rw [successors_link ha, Digraph.successors_append, addLast, if_neg hsucc, h.successors]
  · funext x
    have hpred : a ∉ g.predecessors b := fun hm => hnew (hg.mem_predecessors.1 hm)
    rw [predecessors_link hb, Digraph.predecessors_append, addLast, if_neg hpred, h.predecessors]
  · rw [edgeCount_link, h.edgeCount, List.length_append, List.length_singleton]

end Depicts

/-- What an insertion does, in terms of a digraph with the same edges. -/
theorem Outcome.depicts {r : Bool × Graph} (h : Outcome g a b r) (hg : g.Sound)
    (hd : g.Depicts d) :
    (r.1 = true → d.Admits a b ∧ r.2.Depicts (d.accept a b)) ∧
      (r.1 = false → ¬ d.Admits a b ∧ r.2 = g) := by
  cases h with
  | refused h => exact ⟨by simp, fun _ => ⟨fun ha => h (hd.admits.2 ha), rfl⟩⟩
  | present h hedge =>
    refine ⟨fun _ => ⟨hd.admits.1 h, ?_⟩, by simp⟩
    rw [Digraph.accept, if_pos (hd.edge.1 hedge)]
    exact hd
  | inOrder h hedge _ =>
    exact ⟨fun _ => ⟨hd.admits.1 h, hd.link hg h.1 h.2.1 hedge⟩, by simp⟩
  | reordered h hedge _ _ _ g' _ _ _ _ hsame hsound =>
    refine ⟨fun _ => ⟨hd.admits.1 h, ?_⟩, by simp⟩
    refine (hd.of_sameEdges hsame).link hsound ?_ ?_ (hsame.edge ▸ hedge)
    · rw [hsame.contains]
      exact h.1
    · rw [hsame.contains]
      exact h.2.1

/-- A graph and a digraph with the same edges give the same answer, and have the same edges
after. -/
theorem serve_depicts {request : Request} {answer : Answer} (hg : g.Sound) (hd : g.Depicts d)
    (h : g.serve request = some (answer, g')) :
    (d.serve request).1 = answer ∧ g'.Depicts (d.serve request).2 := by
  cases request with
  | addNode =>
    cases h
    exact ⟨by rw [Digraph.serve, addNode_fst, hd.nodeCount], hd.addNode⟩
  | reserve additional =>
    obtain ⟨g'', hr, h⟩ := Option.map_eq_some_iff.1 h
    cases h
    exact ⟨rfl, reserve?_eq_some hr ▸ hd⟩
  | insertEdge a b =>
    cases h
    obtain ⟨htrue, hfalse⟩ := (insertEdge_outcome hg a b).depicts hg hd
    cases hr : (g.insertEdge a b).1 with
    | true =>
      rw [Digraph.serve, if_pos (htrue hr).1]
      exact ⟨rfl, (htrue hr).2⟩
    | false =>
      rw [Digraph.serve, if_neg (hfalse hr).1, (hfalse hr).2]
      exact ⟨rfl, hd⟩

/-- A graph answers every run of requests as the digraph with the same edges. -/
theorem serveAll_depicts {requests : List Request} {answers : List Answer} (hg : g.Sound)
    (hd : g.Depicts d) (h : g.serveAll requests = some (answers, g')) :
    (d.serveAll requests).1 = answers ∧ g'.Depicts (d.serveAll requests).2 := by
  induction requests generalizing g d answers with
  | nil =>
    cases h
    exact ⟨rfl, hd⟩
  | cons request requests ih =>
    simp only [Graph.serveAll, Option.bind_eq_bind, Option.bind_eq_some_iff] at h
    obtain ⟨⟨answer, g₁⟩, h₁, ⟨answers', g₂⟩, h₂, h⟩ := h
    cases h
    obtain ⟨hanswer, hd₁⟩ := serve_depicts hg hd h₁
    obtain ⟨hanswers, hd₂⟩ := ih (hg.serve h₁) hd₁ h₂
    refine ⟨?_, hd₂⟩
    rw [← hanswer, ← hanswers]
    rfl

/-- After any run, an insertion is accepted exactly if it joins two different nodes whose edges
accepted so far do not lead back.  An accepted edge is there afterwards, last at both of its ends if
it is new; a refused one leaves the graph as it was. -/
theorem insertEdge_agrees_with_digraph {requests : List Request} {answers : List Answer}
    (h : Graph.empty.serveAll requests = some (answers, g)) (a b : NodeId) :
    let run := Digraph.serveAll {} requests
    let r := g.insertEdge a b
    answers = run.1 ∧ g.Depicts run.2 ∧
      (r.1 = true ↔
        g.contains a = true ∧ g.contains b = true ∧ a ≠ b ∧ ¬ run.2.Leads b a) ∧
      (r.1 = true →
        (∀ x y, r.2.hasEdge x y = true ↔ g.hasEdge x y = true ∨ x = a ∧ y = b) ∧
        (g.hasEdge a b = true →
          r.2.successors = g.successors ∧ r.2.predecessors = g.predecessors ∧
            r.2.edgeCount = g.edgeCount) ∧
        (g.hasEdge a b = false →
          (∀ x, r.2.successors x = if x = a then g.successors a ++ [b] else g.successors x) ∧
          (∀ x, r.2.predecessors x = if x = b then g.predecessors b ++ [a] else g.predecessors x) ∧
            r.2.edgeCount = g.edgeCount + 1)) ∧
      (r.1 = false → r.2 = g) ∧ r.2.marked = [] := by
  intro run r
  have hg : g.Sound := Sound.empty.serveAll h
  obtain ⟨hanswers, hd⟩ := serveAll_depicts Sound.empty Depicts.empty h
  have hr : r.2.Sound := hg.insertEdge a b
  obtain ⟨htrue, hfalse⟩ := (insertEdge_outcome hg a b).depicts hg hd
  have hadmits : g.Admits a b ↔
      g.contains a = true ∧ g.contains b = true ∧ a ≠ b ∧ ¬ run.2.Leads b a := by
    rw [hd.admits, Digraph.Admits, contains_iff, contains_iff, hd.nodeCount]
  refine ⟨hanswers.symm, hd, ?_, fun hyes => ⟨fun x y => ?_, fun hold => ?_, fun hnew => ?_⟩,
    fun hno => (hfalse hno).2, hr.marked⟩
  · rw [← hadmits, hd.admits]
    refine ⟨fun hyes => (htrue hyes).1, fun hadm => ?_⟩
    by_contra hno
    exact (hfalse (by simpa using hno)).1 hadm
  · rw [hr.hasEdge_iff, hg.hasEdge_iff, (htrue hyes).2.edge, hd.edge, Digraph.mem_edges_accept]
  · have hmem : (a, b) ∈ run.2.edges := hd.edge.1 (hg.hasEdge_iff.1 hold)
    have hd' := (htrue hyes).2
    rw [Digraph.accept, if_pos hmem] at hd'
    exact ⟨hd'.successors.trans hd.successors.symm, hd'.predecessors.trans hd.predecessors.symm,
      hd'.edgeCount.trans hd.edgeCount.symm⟩
  · have hmem : (a, b) ∉ run.2.edges := by
      rw [← hd.edge, ← hg.hasEdge_iff, hnew]
      simp
    have hd' := (htrue hyes).2
    rw [Digraph.accept, if_neg hmem] at hd'
    refine ⟨fun x => ?_, fun x => ?_, ?_⟩
    · rw [hd'.successors, Digraph.successors_append, hd.successors]
    · rw [hd'.predecessors, Digraph.predecessors_append, hd.predecessors]
    · rw [hd'.edgeCount, hd.edgeCount, List.length_append, List.length_singleton]

/-- Three nodes in a line against the order of their allocation: the edge that closes the circle is
refused, and the digraph has the path that it would close. -/
theorem insertEdge_agrees_with_digraph_of_circle :
    ∃ answers g,
      Graph.empty.serveAll [.addNode, .addNode, .reserve 5, .addNode, .insertEdge ⟨2⟩ ⟨0⟩,
        .insertEdge ⟨0⟩ ⟨1⟩] = some (answers, g) ∧
      (g.insertEdge ⟨1⟩ ⟨2⟩).1 = false ∧
      (Digraph.serveAll {} [.addNode, .addNode, .reserve 5, .addNode, .insertEdge ⟨2⟩ ⟨0⟩,
        .insertEdge ⟨0⟩ ⟨1⟩]).2.Leads ⟨2⟩ ⟨1⟩ := by
  have h : Graph.empty.serveAll [.addNode, .addNode, .reserve 5, .addNode, .insertEdge ⟨2⟩ ⟨0⟩,
      .insertEdge ⟨0⟩ ⟨1⟩] =
      some ([.node ⟨0⟩, .node ⟨1⟩, .done, .node ⟨2⟩, .present true, .present true],
        ⟨#[⟨1, [⟨2⟩], [⟨1⟩]⟩, ⟨2, [⟨0⟩], []⟩, ⟨0, [], [⟨0⟩]⟩], 2, []⟩) := by
    cbv
  obtain ⟨-, -, haccept, -⟩ := insertEdge_agrees_with_digraph h ⟨1⟩ ⟨2⟩
  refine ⟨_, _, h, by cbv, ?_⟩
  by_contra hleads
  have hyes := haccept.2 ⟨by decide, by decide, by decide, hleads⟩
  exact absurd hyes (by cbv; decide)

end Graph

end WaitFor
