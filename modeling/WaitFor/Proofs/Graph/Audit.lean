import Mathlib.Data.List.Perm.Subperm
import WaitFor.Graph.Audit
import WaitFor.Proofs.Graph.Sound

/-! # The audit, and the order of a sound graph

The audit finds nothing exactly in a graph that is `Faultless`, whatever state the graph is in.  It
asks the sources of edges whether their targets know them, and never the other way round; that no
target knows an edge which its source does not comes from counting both.  A sound graph has no
fault, and its order lists the nodes once each with the source of every edge before its target.
-/

namespace WaitFor.Graph

variable {g : Graph} {a b : NodeId}

/-! ## Faults of a graph in any state -/

/-- What the audit looks for.  The ranks are the numbers below the number of nodes, no node is
marked, every edge goes up in rank, and its target knows it; no target knows any other edge, and
the edges are counted right. -/
structure Faultless (g : Graph) : Prop where
  ranks : (g.ids.map g.rank).Perm (List.range g.nodeCount)
  unmarked : ∀ a, g.contains a = true → a ∉ g.marked
  rank_lt : ∀ a b, g.Edge a b → g.rank a < g.rank b
  mem_predecessors : ∀ a b, g.Edge a b ↔ a ∈ g.predecessors b
  edgeCount : g.edges.length = g.edgeCount

/-- The check of the ranks passes if they are distinct, in range and not seen before. -/
theorem ranksDistinct_iff {count : Nat} {seen ranks : List Nat} :
    ranksDistinct count seen ranks = true ↔
      ranks.Nodup ∧ ∀ r ∈ ranks, r < count ∧ r ∉ seen := by
  induction ranks generalizing seen with
  | nil => simp [ranksDistinct]
  | cons r ranks ih =>
    rw [ranksDistinct, Bool.and_eq_true, Bool.and_eq_true, ih, List.nodup_cons,
      List.forall_mem_cons]
    simp only [decide_eq_true_eq, List.mem_cons, not_or]
    constructor
    · rintro ⟨⟨hr, hseen⟩, hnodup, hall⟩
      exact ⟨⟨fun hmem => (hall r hmem).2.1 rfl, hnodup⟩, ⟨hr, hseen⟩,
        fun x hx => ⟨(hall x hx).1, (hall x hx).2.2⟩⟩
    · rintro ⟨⟨hmem, hnodup⟩, ⟨hr, hseen⟩, hall⟩
      exact ⟨⟨hr, hseen⟩, hnodup,
        fun x hx => ⟨(hall x hx).1, fun e => hmem (e ▸ hx), (hall x hx).2⟩⟩

/-- Distinct ranks below the number of nodes leave out none of these numbers. -/
theorem rankFault_eq_none_iff :
    g.rankFault = none ↔ (g.ids.map g.rank).Perm (List.range g.nodeCount) := by
  have hiff : g.rankFault = none ↔ ranksDistinct g.nodeCount [] (g.ids.map g.rank) = true := by
    rw [rankFault]
    split
    · next h => exact iff_of_true rfl h
    · next h => exact iff_of_false (Option.some_ne_none _) h
  rw [hiff, ranksDistinct_iff]
  constructor
  · rintro ⟨hnodup, hall⟩
    have hsub : (g.ids.map g.rank).Subperm (List.range g.nodeCount) :=
      List.subperm_of_subset hnodup fun r hr => List.mem_range.2 (hall r hr).1
    refine hsub.perm_of_length_le ?_
    rw [List.length_range, List.length_map, ids, List.length_map, List.length_range]
    exact Nat.le_refl _
  · intro hperm
    refine ⟨hperm.nodup_iff.2 List.nodup_range, fun r hr => ?_⟩
    exact ⟨List.mem_range.1 (hperm.mem_iff.1 hr), List.not_mem_nil⟩

/-- An edge is faultless if it goes up in rank and its target knows it. -/
theorem edgeFault_eq_none_iff :
    g.edgeFault a b = none ↔ g.rank a < g.rank b ∧ a ∈ g.predecessors b := by
  rw [edgeFault]
  split
  · next h => exact iff_of_false (Option.some_ne_none _) fun hab => absurd hab.1 (Nat.not_lt.2 h)
  · next h =>
    split
    · next hmem => exact iff_of_true rfl ⟨Nat.not_le.1 h, hmem⟩
    · next hmem => exact iff_of_false (Option.some_ne_none _) fun hab => hmem hab.2

/-- Nothing is found at the nodes if none of them is marked and their edges are faultless. -/
theorem nodeFaults_eq_none_iff : g.ids.findSome? g.nodeFault = none ↔
    (∀ a, g.contains a = true → a ∉ g.marked) ∧
      ∀ a b, g.Edge a b → g.rank a < g.rank b ∧ a ∈ g.predecessors b := by
  have hnode : ∀ a, g.nodeFault a = none ↔
      a ∉ g.marked ∧ ∀ b, g.Edge a b → g.rank a < g.rank b ∧ a ∈ g.predecessors b := by
    intro a
    rw [nodeFault]
    split
    · next h => exact iff_of_false (Option.some_ne_none _) fun hab => hab.1 h
    · next h =>
      rw [List.findSome?_eq_none_iff]
      simp only [edgeFault_eq_none_iff]
      exact ⟨fun hall => ⟨h, hall⟩, fun hall => hall.2⟩
  rw [List.findSome?_eq_none_iff]
  simp only [hnode, mem_ids]
  constructor
  · intro hall
    exact ⟨fun a ha => (hall a ha).1,
      fun a b hab => (hall a (contains_of_mem_successors hab)).2 b hab⟩
  · exact fun hall a ha => ⟨hall.1 a ha, hall.2 a⟩

/-- The edges as their targets know them, those into one node beside each other. -/
def arrivals (g : Graph) : List (NodeId × NodeId) :=
  g.ids.flatMap fun b => (g.predecessors b).map fun a => (a, b)

/-- The arrivals are the edges as their targets know them. -/
theorem mem_arrivals : (a, b) ∈ g.arrivals ↔ a ∈ g.predecessors b := by
  simp only [arrivals, List.mem_flatMap, List.mem_map, Prod.mk.injEq, mem_ids]
  constructor
  · rintro ⟨_, _, _, h, rfl, rfl⟩
    exact h
  · exact fun h => ⟨b, contains_of_mem_predecessors h, a, h, rfl, rfl⟩

/-- Targets that know no source twice know no edge twice. -/
theorem nodup_arrivals (h : ∀ b, (g.predecessors b).Nodup) : g.arrivals.Nodup := by
  refine List.nodup_flatMap.2 ⟨fun b _ => (h b).map fun _ _ e => (Prod.mk.inj e).1, ?_⟩
  refine (nodup_ids g).imp fun hne => ?_
  show List.Disjoint _ _
  rw [List.disjoint_left]
  simp only [List.mem_map]
  rintro _ ⟨_, _, rfl⟩ ⟨_, _, e⟩
  exact hne (Prod.mk.inj e).2.symm

/-- The number of edges is right if it is that of the edges at either end. -/
theorem countFault_eq_none_iff :
    g.countFault = none ↔ g.edges.length = g.edgeCount ∧ g.arrivals.length = g.edgeCount := by
  have hsucc : (g.ids.flatMap g.successors).length = g.edges.length := by
    simp [edges, List.length_flatMap]
  have hpred : (g.ids.flatMap g.predecessors).length = g.arrivals.length := by
    simp [arrivals, List.length_flatMap]
  rw [countFault, hsucc, hpred]
  split
  · next h => exact iff_of_true rfl h
  · next h => exact iff_of_false (Option.some_ne_none _) h

/-- If the targets know all edges, they know no others exactly if they know as many as there
are. -/
theorem length_arrivals_eq_iff (hsucc : ∀ a, (g.successors a).Nodup)
    (hpred : ∀ b, (g.predecessors b).Nodup) (hknown : ∀ a b, g.Edge a b → a ∈ g.predecessors b) :
    g.arrivals.length = g.edges.length ↔ ∀ a b, a ∈ g.predecessors b → g.Edge a b := by
  have hsub : g.edges.Subperm g.arrivals := by
    refine List.subperm_of_subset (nodup_edges hsucc) ?_
    rintro ⟨a, b⟩ hab
    exact mem_arrivals.2 (hknown a b (mem_edges.1 hab))
  constructor
  · intro hlen a b hab
    have hperm := hsub.perm_of_length_le (Nat.le_of_eq hlen)
    exact mem_edges.1 (hperm.mem_iff.2 (mem_arrivals.2 hab))
  · intro hback
    refine List.Perm.length_eq ((List.perm_ext_iff_of_nodup (nodup_arrivals hpred)
      (nodup_edges hsucc)).2 ?_)
    rintro ⟨a, b⟩
    rw [mem_arrivals, mem_edges]
    exact ⟨hback a b, hknown a b⟩

/-- The audit finds the faults there are, if no list of a node's neighbors names one twice. -/
theorem audit_eq_none_iff_faultless (hsucc : ∀ a, (g.successors a).Nodup)
    (hpred : ∀ b, (g.predecessors b).Nodup) : g.audit = none ↔ g.Faultless := by
  have hparts : g.audit = none ↔
      g.rankFault = none ∧ g.ids.findSome? g.nodeFault = none ∧ g.countFault = none := by
    rw [audit]
    simp
  rw [hparts, rankFault_eq_none_iff, nodeFaults_eq_none_iff, countFault_eq_none_iff]
  constructor
  · rintro ⟨hranks, ⟨hmarked, hedge⟩, hcount, hcount'⟩
    have hback := (length_arrivals_eq_iff hsucc hpred fun a b hab => (hedge a b hab).2).1
      (hcount'.trans hcount.symm)
    exact ⟨hranks, hmarked, fun a b hab => (hedge a b hab).1,
      fun a b => ⟨fun hab => (hedge a b hab).2, hback a b⟩, hcount⟩
  · intro hg
    have hlen := (length_arrivals_eq_iff hsucc hpred fun a b => (hg.mem_predecessors a b).1).2
      fun a b => (hg.mem_predecessors a b).2
    exact ⟨hg.ranks, ⟨hg.unmarked,
      fun a b hab => ⟨hg.rank_lt a b hab, (hg.mem_predecessors a b).1 hab⟩⟩, hg.edgeCount,
      hlen.trans hg.edgeCount⟩

/-- In a graph in any state, as long as no list of a node's neighbors names one twice, the audit
finds nothing exactly if the ranks are the numbers below the number of nodes, no node is marked,
every edge goes up in rank, sources and targets know the same edges, and these are as many as the
graph says.  So it finds an edge that only the target knows. -/
theorem audit_finds_every_fault (hsucc : ∀ a, (g.successors a).Nodup)
    (hpred : ∀ b, (g.predecessors b).Nodup) :
    (g.audit = none ↔
      (g.ids.map g.rank).Perm (List.range g.nodeCount) ∧
      (∀ a, g.contains a = true → a ∉ g.marked) ∧
      (∀ a b, b ∈ g.successors a → g.rank a < g.rank b) ∧
      (∀ a b, b ∈ g.successors a ↔ a ∈ g.predecessors b) ∧
      (g.edges.Nodup ∧ (∀ a b, (a, b) ∈ g.edges ↔ b ∈ g.successors a) ∧
        g.edges.length = g.edgeCount)) ∧
    ∀ a b, a ∈ g.predecessors b → b ∉ g.successors a → g.audit ≠ none := by
  have haudit := audit_eq_none_iff_faultless hsucc hpred
  refine ⟨haudit.trans ⟨fun hg => ?_, ?_⟩, fun a b hknown hedge hnone => ?_⟩
  · exact ⟨hg.ranks, hg.unmarked, hg.rank_lt, hg.mem_predecessors, nodup_edges hsucc,
      fun a b => mem_edges, hg.edgeCount⟩
  · rintro ⟨hranks, hmarked, hlt, hmem, -, -, hcount⟩
    exact ⟨hranks, hmarked, hlt, hmem, hcount⟩
  · exact hedge (((haudit.1 hnone).mem_predecessors a b).2 hknown)

/-- One edge `0 → 1`, and node 0 knows of another one that would come from node 1: ranks, order and
the number of edges at their sources are right, and the audit finds a fault all the same. -/
theorem audit_finds_every_fault_of_stray_source :
    let g : Graph := ⟨#[⟨0, [⟨1⟩], [⟨1⟩]⟩, ⟨1, [⟨0⟩], []⟩], 1, []⟩
    (∀ a, (g.successors a).Nodup) ∧ (∀ b, (g.predecessors b).Nodup) ∧ g.audit ≠ none := by
  intro g
  have hsucc : ∀ a, (g.successors a).Nodup := by
    rintro ⟨_ | _ | i⟩ <;> simp [g, successors]
  have hpred : ∀ b, (g.predecessors b).Nodup := by
    rintro ⟨_ | _ | i⟩ <;> simp [g, predecessors]
  obtain ⟨-, hstray⟩ := audit_finds_every_fault hsucc hpred
  exact ⟨hsucc, hpred, hstray ⟨1⟩ ⟨0⟩ (by decide) (by decide)⟩

/-! ## Sound graphs -/

/-- A sound graph has no fault. -/
theorem Sound.faultless (hg : g.Sound) : g.Faultless where
  ranks := hg.ranks
  unmarked a _ := by
    rw [hg.marked]
    exact List.not_mem_nil
  rank_lt _ _ := hg.rank_lt
  mem_predecessors _ _ := hg.mem_predecessors.symm
  edgeCount := hg.edgeCount

/-- A sound graph passes the audit. -/
theorem Sound.audit_eq_none (hg : g.Sound) : g.audit = none :=
  (audit_eq_none_iff_faultless hg.nodup_successors hg.nodup_predecessors).2 hg.faultless

/-! ## The order -/

/-- The order is one of the allocated nodes. -/
theorem mem_order : a ∈ g.order ↔ g.contains a = true := by
  rw [order, sortBy, List.mem_mergeSort, mem_ids]

/-- No node comes twice in the order. -/
theorem nodup_order (g : Graph) : g.order.Nodup :=
  (List.mergeSort_perm _ _).nodup_iff.2 (nodup_ids g)

/-- Lower ranks come first in the order. -/
theorem idxOf_order_lt (ha : g.contains a = true) (hb : g.contains b = true)
    (hlt : g.rank a < g.rank b) : g.order.idxOf a < g.order.idxOf b := by
  have hsorted : g.order.Pairwise fun x y => g.rank x ≤ g.rank y := pairwise_sortBy _ _
  have hia : g.order.idxOf a < g.order.length := List.idxOf_lt_length_of_mem (mem_order.2 ha)
  have hib : g.order.idxOf b < g.order.length := List.idxOf_lt_length_of_mem (mem_order.2 hb)
  by_contra hle
  rcases Nat.eq_or_lt_of_le (Nat.not_lt.1 hle) with heq | hlt'
  · have : a = b := by
      rw [← List.getElem_idxOf hia, ← List.getElem_idxOf hib]
      simp [heq]
    exact Nat.lt_irrefl _ (this ▸ hlt)
  · have := List.pairwise_iff_getElem.1 hsorted _ _ hib hia hlt'
    rw [List.getElem_idxOf, List.getElem_idxOf] at this
    omega

end WaitFor.Graph
