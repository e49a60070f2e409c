import Mathlib.Data.List.Permutation
import Mathlib.Data.Sum.Basic
import WaitFor.Proofs.Graph.Breadth

/-! # Tracing parents back

Whether parents can be traced back to the start of a search does not depend on ranks, nor on where
the edges lead: in any graph, with circles or without, the search gives a node its parent when it
meets it first, and the parent was met before.  So each node stands one step deeper than its parent
(`Tree`), no node is its own ancestor, and the way up from the goal ends where the search began.

The two loops are spelled out here turn by turn: from each state a turn either ends the loop with a
result or leads to the next state (`Loop.run`).  The loop of the search ends because every node
enters the queue at most once; that which follows parents knows no bound, and ends because each turn
goes one step up in the tree. -/

namespace WaitFor

open Relation

/-! ## Loops -/

namespace Loop

variable {σ ρ : Type} {turn : σ → ρ ⊕ σ} {start s : σ}

/-- The result of a loop that ends within `k` turns, or else the state after them. -/
def run (turn : σ → ρ ⊕ σ) : (k : Nat) → (start : σ) → ρ ⊕ σ
  | 0, start => .inr start
  | k + 1, start => (turn start).elim .inl (run turn k)

/-- A turn that goes on leaves the rest to the other turns. -/
theorem run_succ_of_going (h : turn start = .inr s) (k : Nat) :
    run turn (k + 1) start = run turn k s := by
  rw [run, h, Sum.elim_inr]

/-- A turn that ends the loop is the last one. -/
theorem run_succ_of_ended {r : ρ} (h : turn start = .inl r) (k : Nat) :
    run turn (k + 1) start = .inl r := by
  rw [run, h, Sum.elim_inl]

section invariant

variable {I : σ → Prop} {J : ρ → Prop}

/-- What every turn keeps up holds of the states of a loop and of its result. -/
theorem run_elim (hturn : ∀ s, I s → (turn s).elim J I) (h : I start) (k : Nat) :
    (run turn k start).elim J I := by
  induction k generalizing start with
  | zero => exact h
  | succ k ih =>
    have hnext := hturn start h
    cases hs : turn start with
    | inl r =>
      rw [hs] at hnext
      rw [run_succ_of_ended hs]
      exact hnext
    | inr s =>
      rw [hs] at hnext
      rw [run_succ_of_going hs]
      exact ih hnext

/-- A loop ends if every turn that goes on leaves less to do. -/
theorem exists_run_eq_inl (hturn : ∀ s, I s → (turn s).elim J I) {pending : σ → Nat}
    (hless : ∀ s s', I s → turn s = .inr s' → pending s' < pending s) (h : I start) {k : Nat}
    (hk : pending start < k) : ∃ r, run turn k start = .inl r ∧ J r := by
  induction k generalizing start with
  | zero => exact absurd hk (Nat.not_lt_zero _)
  | succ k ih =>
    have hnext := hturn start h
    cases hs : turn start with
    | inl r =>
      rw [hs] at hnext
      exact ⟨r, run_succ_of_ended hs k, hnext⟩
    | inr s =>
      rw [hs] at hnext
      have hpending := hless start s h hs
      rw [run_succ_of_going hs]
      exact ih hnext (by omega)

end invariant

end Loop

/-! ## Following parents -/

namespace Parents

variable {parents : Parents} {v : NodeId} {nodes : List NodeId}

/-- The way from a node to its ancestors: the node that was come to, and all nodes on the way, the
first one first. -/
structure Climb where
  cursor : NodeId
  passed : List NodeId

/-- One turn of following parents: a step up, or the nodes that were passed. -/
def climb (parents : Parents) (c : Climb) : List NodeId ⊕ Climb :=
  match parents.get? c.cursor with
  | none => .inl c.passed
  | some n => .inr ⟨n, c.passed ++ [n]⟩

/-- Following parents goes the way down backwards, with one turn for each of its nodes. -/
theorem Descent.run_climb (h : parents.Descent v nodes) (passed : List NodeId) :
    Loop.run parents.climb nodes.length ⟨v, passed ++ [v]⟩ = .inl (passed ++ nodes.reverse) := by
  induction h generalizing passed with
  | @root v hv =>
    have hend : parents.climb ⟨v, passed ++ [v]⟩ = .inl (passed ++ [v]) := by
      rw [climb, hv]
    exact Loop.run_succ_of_ended hend 0
  | @child v n nodes hv _ ih =>
    have hup : parents.climb ⟨v, passed ++ [v]⟩ = .inr ⟨n, passed ++ [v] ++ [n]⟩ := by
      rw [climb, hv]
    rw [List.length_append, List.length_singleton, Loop.run_succ_of_going hup, ih,
      List.reverse_append, List.reverse_singleton, List.append_assoc]

/-- On the way down each node is the parent of the next. -/
theorem Descent.isChain (h : parents.Descent v nodes) :
    nodes.IsChain fun x y => parents.get? y = some x := by
  induction h with
  | root => exact List.isChain_singleton _
  | @child v n nodes hv rest ih =>
    refine ih.append (List.isChain_singleton _) fun x hx y hy => ?_
    obtain rfl := Option.some.inj hy
    cases rest with
    | root =>
      obtain rfl := Option.some.inj hx
      exact hv
    | child =>
      rw [List.getLast?_concat] at hx
      obtain rfl := Option.some.inj hx
      exact hv

end Parents

namespace Tree

variable {w : Scope} {a v n : NodeId} {parents : Parents} {depth : NodeId → Nat}
  {nodes : List NodeId}

/-- An ancestor is less deep. -/
theorem depth_lt (h : Tree w a parents depth) {x y : NodeId}
    (hxy : TransGen (fun x y => parents.get? x = some y) x y) : depth y < depth x := by
  induction hxy with
  | single hx =>
    have := (h.parent hx).2.2
    omega
  | tail _ hy ih =>
    have := (h.parent hy).2.2
    omega

/-- No node is its own ancestor. -/
theorem acyclic (h : Tree w a parents depth) (v : NodeId) :
    ¬ TransGen (fun x y => parents.get? x = some y) v v :=
  fun hv => Nat.lt_irrefl _ (h.depth_lt hv)

/-- No node is passed twice on the way down, since the way goes deeper. -/
theorem nodup_of_descent (h : Tree w a parents depth) (hd : parents.Descent v nodes) :
    nodes.Nodup := by
  have hdeeper : nodes.IsChain fun x y => depth x < depth y := by
    refine hd.isChain.imp fun x y hxy => ?_
    have := (h.parent hxy).2.2
    omega
  have hpairwise : nodes.Pairwise fun x y => depth x < depth y :=
    List.isChain_iff_pairwise.1 hdeeper
  refine hpairwise.imp fun hlt heq => ?_
  rw [heq] at hlt
  exact Nat.lt_irrefl _ hlt

end Tree

namespace Graph

variable {g : Graph} {a b n v x y : NodeId} {parents : Parents} {depth : NodeId → Nat}
  {nodes : List NodeId}

/-! ## Turns of the search -/

/-- A breadth-first search under way: the parents given so far, the nodes that it has still to turn
to, and whether the goal was met. -/
structure Frontier where
  parents : Parents
  queue : List NodeId
  reached : Bool

/-- The search from `a` for `b` before its first turn. -/
def Frontier.start (a b : NodeId) : Frontier where
  parents := .empty
  queue := [a]
  reached := a = b

/-- One turn of a search from `a` for `b`: it looks at the nodes beside the first node of the queue,
or ends since there is none or the goal was met. -/
def searchTurn (g : Graph) (a b : NodeId) (f : Frontier) : (Parents × Bool) ⊕ Frontier :=
  match f.queue with
  | [] => .inl (f.parents, f.reached)
  | n :: queue =>
    if f.reached then .inl (f.parents, true)
    else
      let d := g.discover a b n f.parents [] (g.successors n)
      .inr ⟨d.parents, queue ++ d.met, d.reached⟩

/-- What a search under way will come to. -/
def outcome (g : Graph) (a b : NodeId) (f : Frontier) : Parents × Bool :=
  if f.reached then (f.parents, true) else g.explore a b f.parents f.queue

/-- What holds of a search under way: its parents make a tree, in which all nodes of the queue hang,
and it will come to the parents from which the path is read off. -/
structure Frontier.Rooted (g : Graph) (a b : NodeId) (f : Frontier) : Prop where
  tree : ∃ depth, Tree (g.scope b) a f.parents depth
  queued : ∀ v ∈ f.queue, MetFrom a f.parents v
  outcome : g.outcome a b f = g.parentsTo a b

/-- The search keeps its tree while it looks at the nodes beside a node, and all nodes that it meets
hang in the tree. -/
theorem tree_discover {beside : List NodeId} (met : List NodeId)
    (h : Tree (g.scope b) a parents depth) (hn : MetFrom a parents n)
    (hbeside : beside ⊆ g.successors n) (hmet : ∀ v ∈ met, MetFrom a parents v) :
    (∃ depth', Tree (g.scope b) a (g.discover a b n parents met beside).parents depth') ∧
      (∀ v, MetFrom a parents v → MetFrom a (g.discover a b n parents met beside).parents v) ∧
      ∀ v ∈ (g.discover a b n parents met beside).met,
        MetFrom a (g.discover a b n parents met beside).parents v := by
  induction beside generalizing parents met depth with
  | nil => exact ⟨⟨depth, h⟩, fun v hv => hv, hmet⟩
  | cons v beside ih =>
    obtain ⟨hv, hbeside⟩ := List.cons_subset.1 hbeside
    rw [discover]
    by_cases hpass : v = a ∨ parents.contains v ∨ g.rank b < g.rank v
    · rw [if_pos hpass]
      exact ih met h hn hbeside hmet
    · rw [if_neg hpass]
      have hfresh : (g.scope b).Fresh a parents v := by
        by_contra hfresh
        exact hpass (not_fresh_iff.1 hfresh)
      -- The node hangs below `n` from now on.
      have htree := h.insert hn hfresh.1 ⟨hv, hfresh.2⟩
      have hkept : ∀ x, MetFrom a parents x → MetFrom a (Table.insert parents v n) x :=
        fun x hx => Tree.met_insert.2 (Or.inl hx)
      have hmet' : ∀ x ∈ met ++ [v], MetFrom a (Table.insert parents v n) x := by
        intro x hx
        rcases List.mem_append.1 hx with hx | hx
        · exact hkept x (hmet x hx)
        · exact Tree.met_insert.2 (Or.inr (List.mem_singleton.1 hx))
      by_cases hvb : v = b
      · rw [if_pos hvb]
        exact ⟨⟨_, htree⟩, hkept, hmet'⟩
      · rw [if_neg hvb]
        obtain ⟨htree', hkept', hmet''⟩ := ih _ htree (hkept n hn) hbeside hmet'
        exact ⟨htree', fun x hx => hkept' x (hkept x hx), hmet''⟩

namespace Frontier.Rooted

variable {f f' : Frontier}

/-- At first the queue is the root, and the whole search is still to come. -/
theorem start (g : Graph) (a b : NodeId) : (Frontier.start a b).Rooted g a b where
  tree := ⟨_, .start _ a⟩
  queued v hv := Or.inl (List.mem_singleton.1 hv)
  outcome := by
    rw [Graph.outcome, parentsTo]
    exact if_congr decide_eq_true_iff rfl rfl

/-- Every turn keeps the tree, and the last one ends the search with what it was to come to. -/
theorem turn (h : f.Rooted g a b) :
    (g.searchTurn a b f).elim
      (fun r => r = g.parentsTo a b ∧ ∃ depth, Tree (g.scope b) a r.1 depth)
      (Frontier.Rooted g a b) := by
  obtain ⟨parents, queue, reached⟩ := f
  obtain ⟨⟨depth, htree⟩, hqueued, houtcome⟩ := h
  dsimp only at htree hqueued
  cases queue with
  | nil =>
    refine ⟨?_, depth, htree⟩
    rw [← houtcome, Graph.outcome, explore]
    cases reached <;> rfl
  | cons n queue =>
    obtain ⟨hn, hqueue⟩ := List.forall_mem_cons.1 hqueued
    cases reached with
    | true => exact ⟨houtcome, depth, htree⟩
    | false =>
      obtain ⟨htree', hkept, hmet⟩ :=
        tree_discover [] htree hn (List.Subset.refl _) (List.forall_mem_nil _)
      refine ⟨htree', List.forall_mem_append.2 ⟨fun v hv => hkept v (hqueue v hv), hmet⟩, ?_⟩
      rw [← houtcome, Graph.outcome, Graph.outcome, if_neg Bool.false_ne_true, explore]

/-- Every turn that goes on takes a node off the queue, and puts there no more nodes than it gives
parents to.  The start of the search never gets one. -/
theorem pending_lt (ha : g.contains a = true)
    (hsucc : ∀ x, ∀ y ∈ g.successors x, g.contains y = true) (h : f.Rooted g a b)
    (hturn : g.searchTurn a b f = .inr f') :
    f'.parents.orphans g.nodeCount - 1 + f'.queue.length <
      f.parents.orphans g.nodeCount - 1 + f.queue.length := by
  have hrooted := h.turn
  rw [hturn] at hrooted
  obtain ⟨depth, htree⟩ := hrooted.tree
  have horphan : 0 < f'.parents.orphans g.nodeCount := by
    refine List.countP_pos_iff.2 ⟨a.index, List.mem_range.2 (contains_iff.1 ha), ?_⟩
    rw [Table.contains, htree.root]
    rfl
  obtain ⟨parents, queue, reached⟩ := f
  cases queue with
  | nil => cases hturn
  | cons n queue =>
    cases reached with
    | true => cases hturn
    | false =>
      cases hturn
      have hle := g.orphans_discover_le a b n parents [] fun v hv => contains_iff.1 (hsucc n v hv)
      dsimp only [List.length_nil] at hle horphan ⊢
      rw [List.length_append, List.length_cons]
      omega

end Frontier.Rooted

/-- After any number of turns the parents make a tree. -/
theorem exists_tree_after (g : Graph) (a b : NodeId) (k : Nat) :
    ∃ depth, Tree (g.scope b) a
      ((Loop.run (g.searchTurn a b) k (.start a b)).elim Prod.fst Frontier.parents) depth := by
  have hk := Loop.run_elim (fun _ => Frontier.Rooted.turn) (Frontier.Rooted.start g a b) k
  cases hrun : Loop.run (g.searchTurn a b) k (.start a b) with
  | inl r =>
    rw [hrun] at hk
    exact hk.2
  | inr f =>
    rw [hrun] at hk
    exact hk.tree

/-- The search ends within one turn more than there are nodes. -/
theorem run_searchTurn (ha : g.contains a = true)
    (hsucc : ∀ x, ∀ y ∈ g.successors x, g.contains y = true) (b : NodeId) :
    Loop.run (g.searchTurn a b) (g.nodeCount + 1) (.start a b) = .inl (g.parentsTo a b) := by
  have hpending : Parents.orphans g.nodeCount .empty - 1 + [a].length < g.nodeCount + 1 := by
    have hpos := contains_iff.1 ha
    have hall : Parents.orphans g.nodeCount .empty ≤ g.nodeCount :=
      List.countP_le_length.trans (Nat.le_of_eq List.length_range)
    rw [List.length_singleton]
    omega
  obtain ⟨r, hrun, rfl, -⟩ := Loop.exists_run_eq_inl (fun _ => Frontier.Rooted.turn)
    (fun _ _ => Frontier.Rooted.pending_lt ha hsucc) (Frontier.Rooted.start g a b) hpending
  exact hrun

/-! ## The way back -/

/-- A list of distinct nodes is no longer than there are nodes. -/
theorem length_le_nodeCount (hnodup : nodes.Nodup) (hnodes : ∀ x ∈ nodes, g.contains x = true) :
    nodes.length ≤ g.nodeCount := by
  have hsub : nodes.Subperm g.ids :=
    List.subperm_of_subset hnodup fun x hx => mem_ids.2 (hnodes x hx)
  have hids : g.ids.length = g.nodeCount := by simp [ids, nodeCount]
  exact hids ▸ hsub.length_le

/-- The nodes on the way of a search from an allocated node are allocated. -/
theorem contains_of_path (hpath : Path (g.scope b).Step a v nodes) (ha : g.contains a = true)
    (hsucc : ∀ x, ∀ y ∈ g.successors x, g.contains y = true) (hx : x ∈ nodes) :
    g.contains x = true := by
  rcases ReflTransGen.cases_tail (hpath.between hx).1 with rfl | ⟨z, -, hzx⟩
  · exact ha
  · exact hsucc z x hzx.1

/-- In any graph whose edges go to nodes that are there, whatever its ranks and with circles or
without, a search from `a` for `b` ends within one turn more than there are nodes.  At no time does
`a` have a parent, or is a node its own ancestor.  The goal is met exactly if edges lead to it from
`a` through nodes that are not ranked after it.  Then following parents from `b` ends within as many
turns as there are nodes, at `a`, and passes no node twice; the nodes that it passed are, backwards,
a path of edges, and that is the path shown. -/
theorem parents_lead_back (g : Graph) {a b : NodeId}
    (hsucc : ∀ x, ∀ y ∈ g.successors x, g.contains y = true) (ha : g.contains a = true)
    (hb : g.contains b = true) :
    let search := fun k => Loop.run (g.searchTurn a b) k (.start a b)
    let edge := fun x y => g.hasEdge x y = true
    (∃ k ≤ g.nodeCount + 1, search k = .inl (g.parentsTo a b)) ∧
    (∀ k, let parents := (search k).elim Prod.fst Frontier.parents
      parents.get? a = none ∧ ∀ v, ¬ TransGen (fun x y => parents.get? x = some y) v v) ∧
    ((g.parentsTo a b).2 = true ↔
      ReflTransGen (fun x y => edge x y ∧ g.rank y ≤ g.rank b) a b) ∧
    ((g.parentsTo a b).2 = true → ∃ nodes : List NodeId,
      (∃ k ≤ g.nodeCount,
        Loop.run (g.parentsTo a b).1.climb k ⟨b, [b]⟩ = .inl nodes.reverse) ∧
      (nodes.head? = some a ∧ nodes.getLast? = some b) ∧ nodes.Nodup ∧ nodes.IsChain edge ∧
      (g.rank a ≤ g.rank b →
        ∀ maxLength, g.shortestPath? a b maxLength = some (.ofNodes nodes maxLength))) := by
  intro search edge
  -- The steps of the search are the edges to nodes that are not ranked after `b`.
  have hedge : ∀ x y, edge x y ↔ y ∈ g.successors x := fun x y =>
    hasEdge_iff.trans (and_iff_right_of_imp (hsucc x y))
  have hstep : (fun x y => edge x y ∧ g.rank y ≤ g.rank b) = (g.scope b).Step := by
    funext x y
    exact propext (and_congr_left' (hedge x y))
  rw [hstep]
  refine ⟨⟨_, Nat.le_refl _, run_searchTurn ha hsucc b⟩, fun k => ?_, reached_iff,
    fun hreached => ?_⟩
  · obtain ⟨depth, htree⟩ := g.exists_tree_after a b k
    exact ⟨htree.root, htree.acyclic⟩
  · obtain ⟨depth, htree, hmet⟩ := tree_of_reached hreached
    have hd := htree.descent_trace hmet (htree.depth_le hmet)
    obtain ⟨hpath, -⟩ := htree.path_of_descent hd hmet
    have hnodup := htree.nodup_of_descent hd
    have hlength := length_le_nodeCount hnodup fun x hx =>
      contains_of_path hpath ha hsucc hx
    refine ⟨_, ⟨_, hlength, hd.run_climb []⟩, ⟨hpath.head?, hpath.getLast?⟩, hnodup, ?_, ?_⟩
    · exact hpath.isChain.imp fun x y hxy => (hedge x y).2 hxy.1
    · exact fun hrank maxLength => shortestPath?_eq_of_reached ha hb hrank hreached maxLength

/-- Edges `0 → 1`, `1 → 1`, `1 → 0`, `1 → 2` and `2 → 0`, with ranks that no order can give: node 2
is met from node 0 all the same, and its parents lead back through node 1. -/
theorem parents_lead_back_of_circle :
    let g : Graph := ⟨#[⟨3, [], [⟨1⟩]⟩, ⟨0, [], [⟨1⟩, ⟨0⟩, ⟨2⟩]⟩, ⟨3, [], [⟨0⟩]⟩], 0, []⟩
    (∀ x, ∀ y ∈ g.successors x, g.contains y = true) ∧
    g.contains ⟨0⟩ = true ∧ g.contains ⟨2⟩ = true ∧
    g.shortestPath? ⟨0⟩ ⟨2⟩ 3 = some ⟨[⟨0⟩, ⟨1⟩, ⟨2⟩], false⟩ ∧
    ∃ k ≤ 3, Loop.run (g.parentsTo ⟨0⟩ ⟨2⟩).1.climb k ⟨⟨2⟩, [⟨2⟩]⟩ = .inl [⟨2⟩, ⟨1⟩, ⟨0⟩] := by
  intro g
  have hpath : g.shortestPath? ⟨0⟩ ⟨2⟩ 3 = some ⟨[⟨0⟩, ⟨1⟩, ⟨2⟩], false⟩ := by
    cbv
  have hsucc : ∀ x, ∀ y ∈ g.successors x, g.contains y = true := by
    rintro ⟨_ | _ | _ | i⟩ <;> simp [g, successors, contains]
  obtain ⟨-, -, hreached, htraced⟩ :=
    parents_lead_back g (a := ⟨0⟩) (b := ⟨2⟩) hsucc (by decide) (by decide)
  obtain ⟨nodes, hrun, -, -, -, hshown⟩ :=
    htraced (hreached.2 (.tail (.single (b := ⟨1⟩) (by decide)) (by decide)))
  have hroute := Option.some.inj ((hshown (by decide) 3).symm.trans hpath)
  have hlength : nodes.length ≤ 3 := by
    simpa [Route.ofNodes] using congrArg Route.truncated hroute
  have hnodes : nodes = [⟨0⟩, ⟨1⟩, ⟨2⟩] := by
    rw [← List.take_of_length_le hlength]
    exact congrArg Route.nodes hroute
  refine ⟨hsucc, by decide, by decide, hpath, ?_⟩
  rw [hnodes] at hrun
  exact hrun

end Graph

end WaitFor
