import Mathlib.Data.Set.Function
import WaitFor.Proofs.Graph.Requests

/-! # How an insertion moves ranks

Only an edge against the order moves any ranks, and it moves them among the nodes that lead to its
source (`Graph.behind`) and those that its target leads to (`Graph.ahead`), as far as they stand
between the two.  `Exchange` says how: the ranks stay with these nodes, each set keeps its order,
and the first comes to stand before the second, with no node going the other way.
-/

namespace WaitFor.Graph

variable {g g' : Graph} {a b x y : NodeId} {before after : Set NodeId} {old new : NodeId → Nat}

/-- The nodes that lead to `a` and are ranked above `b`. -/
def behind (g : Graph) (a b : NodeId) : Set NodeId := {x | g.Leads x a ∧ g.rank b < g.rank x}

/-- The nodes that `b` leads to and that are ranked below `a`. -/
def ahead (g : Graph) (a b : NodeId) : Set NodeId := {x | g.Leads b x ∧ g.rank x < g.rank a}

/-- Two sets of nodes exchange their ranks so that the one comes before the other. -/
structure Exchange (before after : Set NodeId) (old new : NodeId → Nat) : Prop where
  disjoint : ∀ x ∈ before, x ∉ after
  outside : ∀ x, x ∉ before → x ∉ after → new x = old x
  pool : new '' (before ∪ after) = old '' (before ∪ after)
  before_iff : ∀ x ∈ before, ∀ y ∈ before, new x < new y ↔ old x < old y
  after_iff : ∀ x ∈ after, ∀ y ∈ after, new x < new y ↔ old x < old y
  across : ∀ x ∈ before, ∀ y ∈ after, new x < new y
  before_le : ∀ x ∈ before, new x ≤ old x
  le_after : ∀ x ∈ after, old x ≤ new x

/-- An order of nodes with distinct keys that is kept in one direction is kept in both. -/
theorem lt_iff_lt_of_injOn {s : Set NodeId} (hinj : Set.InjOn old s)
    (hlt : ∀ x ∈ s, ∀ y ∈ s, old x < old y → new x < new y) :
    ∀ x ∈ s, ∀ y ∈ s, new x < new y ↔ old x < old y := by
  intro x hx y hy
  refine ⟨fun h => ?_, hlt x hx y hy⟩
  by_contra hle
  rcases Nat.eq_or_lt_of_le (Nat.not_lt.1 hle) with heq | hyx
  · rw [hinj hx hy heq.symm] at h
    exact Nat.lt_irrefl _ h
  · exact Nat.lt_asymm h (hlt y hy x hx hyx)

/-- Lists of nodes with distinct ranks that are dealt anew exchange them. -/
theorem Redealt.exchange {first second : List NodeId} (h : Redealt first second old new)
    (hdisjoint : ∀ x ∈ first, x ∉ second) (hinj : Set.InjOn old {x | x ∈ first ∨ x ∈ second}) :
    Exchange {x | x ∈ first} {x | x ∈ second} old new where
  disjoint := hdisjoint
  outside := h.outside
  pool := by
    ext r
    have hmem := h.pool.mem_iff (a := r)
    simpa only [List.mem_map, List.mem_append, Set.mem_image, Set.mem_union, Set.mem_ofPred_eq]
      using hmem
  before_iff := lt_iff_lt_of_injOn (hinj.mono fun _ => Or.inl) h.before_lt
  after_iff := lt_iff_lt_of_injOn (hinj.mono fun _ => Or.inr) h.after_lt
  across := h.across
  before_le := h.before_le
  le_after := h.le_after

/-- No two nodes of the affected sets share a rank. -/
theorem Sound.injOn_rank (hg : g.Sound) (ha : g.contains a = true) (hb : g.contains b = true) :
    Set.InjOn g.rank (g.behind a b ∪ g.ahead a b) := by
  have hcontains : ∀ x ∈ g.behind a b ∪ g.ahead a b, g.contains x = true := by
    rintro x (hx | hx)
    · exact contains_of_leads_to ha hx.1
    · exact hg.contains_of_leads hx.1 hb
  exact fun x hx y hy => hg.rank_inj (hcontains x hx) (hcontains y hy)

/-- After any requests, an edge that is accepted although it is new and stands against the order
makes the nodes that lead to its source and those that its target leads to exchange their ranks.  No
other insertion moves a rank. -/
theorem insertEdge_exchanges_ranks {requests : List Request} {answers : List Answer}
    (h : Graph.empty.serveAll requests = some (answers, g)) (a b : NodeId) :
    let r := g.insertEdge a b
    (r.1 = true → g.hasEdge a b = false → g.rank b < g.rank a →
      Exchange (g.behind a b) (g.ahead a b) g.rank r.2.rank) ∧
    (¬ (r.1 = true ∧ g.hasEdge a b = false ∧ g.rank b < g.rank a) → r.2.rank = g.rank) := by
  intro r
  have hg : g.Sound := Sound.empty.serveAll h
  have hnew : g.hasEdge a b = false ↔ ¬ g.Edge a b := by
    rw [← hg.hasEdge_iff, Bool.not_eq_true]
  have hout : Outcome g a b r := insertEdge_outcome hg a b
  clear_value r
  cases hout with
  | refused _ => exact ⟨nofun, fun _ => rfl⟩
  | present _ hedge => exact ⟨fun _ hno => absurd hedge (hnew.1 hno), fun _ => rfl⟩
  | inOrder _ _ hlt =>
    exact ⟨fun _ _ hlt' => absurd hlt' (Nat.lt_asymm hlt), fun _ => funext fun x => rank_link⟩
  | reordered hadmits hedge hlt before after g' hbefore hafter hdisjoint hdealt =>
    refine ⟨fun _ _ _ => ?_, fun hno => absurd ⟨rfl, hnew.2 hedge, hlt⟩ hno⟩
    have hbehind : {x | x ∈ before} = g.behind a b := Set.ext hbefore
    have hahead : {x | x ∈ after} = g.ahead a b := Set.ext hafter
    have hrank : (g'.link a b).rank = g'.rank := funext fun x => rank_link
    rw [hrank, ← hbehind, ← hahead]
    refine hdealt.exchange hdisjoint ?_
    have hinj := hg.injOn_rank hadmits.1 hadmits.2.1
    rwa [← hbehind, ← hahead] at hinj

/-- Edges `0 → 1` and `2 → 3`, and then the edge `3 → 0` against the order: node 2 leads to node 3
and node 0 to node 1, so these two exchange their ranks, and node 3 comes to stand before node 1. -/
theorem insertEdge_exchanges_ranks_of_two_edges :
    ∃ answers g,
      Graph.empty.serveAll [.addNode, .addNode, .addNode, .addNode, .insertEdge ⟨0⟩ ⟨1⟩,
        .insertEdge ⟨2⟩ ⟨3⟩] = some (answers, g) ∧
      Exchange (g.behind ⟨3⟩ ⟨0⟩) (g.ahead ⟨3⟩ ⟨0⟩) g.rank (g.insertEdge ⟨3⟩ ⟨0⟩).2.rank ∧
      (g.insertEdge ⟨3⟩ ⟨0⟩).2.rank ⟨3⟩ < (g.insertEdge ⟨3⟩ ⟨0⟩).2.rank ⟨1⟩ := by
  have h : Graph.empty.serveAll [.addNode, .addNode, .addNode, .addNode, .insertEdge ⟨0⟩ ⟨1⟩,
      .insertEdge ⟨2⟩ ⟨3⟩] =
      some ([.node ⟨0⟩, .node ⟨1⟩, .node ⟨2⟩, .node ⟨3⟩, .present true, .present true],
        ⟨#[⟨0, [], [⟨1⟩]⟩, ⟨1, [⟨0⟩], []⟩, ⟨2, [], [⟨3⟩]⟩, ⟨3, [⟨2⟩], []⟩], 2, []⟩) := by
    cbv
  obtain ⟨hexchange, -⟩ := insertEdge_exchanges_ranks h ⟨3⟩ ⟨0⟩
  have hexchange := hexchange (by cbv) (by decide) (by decide)
  refine ⟨_, _, h, hexchange, hexchange.across _ ⟨.refl _ _, by decide⟩ _ ⟨?_, by decide⟩⟩
  exact .single (show (⟨1⟩ : NodeId) ∈ [⟨1⟩] from List.mem_cons_self)

end WaitFor.Graph
