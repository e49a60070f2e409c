import WaitFor.Proofs.Graph.Breadth
import WaitFor.Proofs.Graph.Insertion
import WaitFor.Proofs.Graph.Requests

/-! # Which nodes are reached

The search of `Graph.reaches` stays among the nodes ranked before its goal, which are all that edges
can lead through.  So it reaches its goal exactly if edges lead there, and exactly if there is a
shortest path to show.
-/

namespace WaitFor.Graph

open Relation

variable {g : Graph} {a b : NodeId}

/-- The search from `a` for another node `b` is cut off exactly if edges lead from `a` to `b`. -/
theorem sweep_toward_iff (hg : g.Sound) (ha : g.contains a = true) (hlt : g.rank a < g.rank b) :
    ((g.toward b).sweep g.nodeCount [] [] [a]).complete = false ↔ g.Leads a b := by
  have hrun := Window.run_sweep (g.toward b) g.nodeCount [] [] [a]
  have hsize : ∀ x, ∀ y ∈ (g.toward b).next x, y.index < g.nodeCount :=
    fun x y hy => contains_iff.1 (hg.contains_right hy)
  rw [hrun.complete_eq_false_iff hsize (contains_iff.1 ha)]
  -- The window is that of the search below the rank of `b`, with another target.
  have hsteps : ∀ x, ReflTransGen (g.toward b).Step a x ↔ g.Leads a x ∧ g.rank x < g.rank b :=
    fun x => steps_below_iff hg hlt
  constructor
  · rintro ⟨x, y, hx, hy, hyb⟩
    have hy : g.Edge x y := hy
    have hyb : y = b := by simpa [toward] using hyb
    exact hyb ▸ ((hsteps x).1 hx).1.tail hy
  · intro h
    rcases ReflTransGen.cases_tail h with rfl | ⟨c, hac, hcb⟩
    · exact absurd hlt (Nat.lt_irrefl _)
    · exact ⟨c, b, (hsteps c).2 ⟨hac, hg.rank_lt hcb⟩, hcb, by simp [toward]⟩

/-- A node reaches another if both are there and edges lead from the one to the other. -/
theorem reaches_iff (hg : g.Sound) :
    g.reaches a b = true ↔ g.contains a = true ∧ g.contains b = true ∧ g.Leads a b := by
  rw [reaches]
  by_cases hc : g.contains a = true ∧ g.contains b = true
  · obtain ⟨ha, hb⟩ := hc
    rw [if_neg (by simp [ha, hb])]
    by_cases hne : a = b
    · rw [if_pos hne]
      exact iff_of_true rfl ⟨ha, hb, hne ▸ .refl g a⟩
    · rw [if_neg hne]
      by_cases hlt : g.rank b < g.rank a
      · rw [if_pos hlt]
        refine iff_of_false Bool.false_ne_true fun h => ?_
        exact absurd (hg.rank_le_of_leads h.2.2) (Nat.not_le.2 hlt)
      · have hrank : g.rank a ≠ g.rank b := fun h => hne (hg.rank_inj ha hb h)
        rw [if_neg hlt, Bool.not_eq_true', sweep_toward_iff hg ha (by omega)]
        exact ⟨fun h => ⟨ha, hb, h⟩, fun h => h.2.2⟩
  · rw [if_pos (by simpa [imp_iff_not_or] using hc)]
    exact iff_of_false Bool.false_ne_true fun h => hc ⟨h.1, h.2.1⟩

/-- A path is shown exactly if edges lead from one node to the other. -/
theorem isSome_shortestPath?_iff (hg : g.Sound) (maxLength : Nat) :
    (g.shortestPath? a b maxLength).isSome = true ↔
      g.contains a = true ∧ g.contains b = true ∧ g.Leads a b := by
  constructor
  · intro h
    rw [shortestPath?] at h
    split at h
    · cases h
    · next hc =>
      have hc : g.contains a = true ∧ g.contains b = true := by simpa using hc
      refine ⟨hc.1, hc.2, ?_⟩
      split at h
      · cases h
      · have hreached : (g.parentsTo a b).2 = true := by
          by_contra hnot
          simp [hnot] at h
        exact ReflTransGen.mono (fun x y hxy => hxy.1) a b (reached_iff.1 hreached)
  · rintro ⟨ha, -, h⟩
    obtain ⟨nodes, -, hfound, -⟩ := exists_shortestPath hg ha h
    rw [hfound]
    rfl

/-- After any requests, a node reaches another exactly if both are allocated and edges that are
there lead from the one to the other, if only by no edge at all; and then a path can be shown,
however short it is cut. -/
theorem reaches_iff_edges_lead {requests : List Request} {answers : List Answer}
    (h : Graph.empty.serveAll requests = some (answers, g)) (a b : NodeId) :
    (g.reaches a b = true ↔ g.contains a = true ∧ g.contains b = true ∧
      ReflTransGen (fun x y => g.hasEdge x y = true) a b) ∧
    ∀ maxLength, (g.shortestPath? a b maxLength).isSome = g.reaches a b := by
  have hg : g.Sound := Sound.empty.serveAll h
  have hedge : (fun x y => g.hasEdge x y = true) = g.Edge := by
    funext x y
    exact propext hg.hasEdge_iff
  rw [hedge]
  refine ⟨reaches_iff hg, fun maxLength => ?_⟩
  rw [Bool.eq_iff_iff, isSome_shortestPath?_iff hg, reaches_iff hg]

/-- Edges `2 → 0` and `0 → 1`, of which the first made a new order: node 2 reaches node 1, and node
1 reaches neither of the others. -/
theorem reaches_iff_edges_lead_of_line :
    ∃ answers g,
      Graph.empty.serveAll [.addNode, .addNode, .addNode, .insertEdge ⟨2⟩ ⟨0⟩,
        .insertEdge ⟨0⟩ ⟨1⟩] = some (answers, g) ∧
      g.reaches ⟨2⟩ ⟨1⟩ = true ∧ (g.shortestPath? ⟨2⟩ ⟨1⟩ 0).isSome = true ∧
      ¬ ReflTransGen (fun x y => g.hasEdge x y = true) ⟨1⟩ ⟨2⟩ := by
  have h : Graph.empty.serveAll [.addNode, .addNode, .addNode, .insertEdge ⟨2⟩ ⟨0⟩,
      .insertEdge ⟨0⟩ ⟨1⟩] =
      some ([.node ⟨0⟩, .node ⟨1⟩, .node ⟨2⟩, .present true, .present true],
        ⟨#[⟨1, [⟨2⟩], [⟨1⟩]⟩, ⟨2, [⟨0⟩], []⟩, ⟨0, [], [⟨0⟩]⟩], 2, []⟩) := by
    cbv
  obtain ⟨hreaches, hshown⟩ := reaches_iff_edges_lead h ⟨2⟩ ⟨1⟩
  obtain ⟨hback, -⟩ := reaches_iff_edges_lead h ⟨1⟩ ⟨2⟩
  have hthere := hreaches.2
    ⟨by decide, by decide, .tail (.single (b := ⟨0⟩) (by decide)) (by decide)⟩
  refine ⟨_, _, h, hthere, (hshown 0).trans hthere, fun hleads => ?_⟩
  have hno : reaches _ ⟨1⟩ ⟨2⟩ = true := hback.2 ⟨by decide, by decide, hleads⟩
  revert hno
  decide

end WaitFor.Graph
