import WaitFor.Proofs.Graph.Reachability
import WaitFor.Proofs.Graph.Renaming

/-! # Shortest paths by a plain search

`Wavefront.spread` is a breadth-first search that knows only how many nodes there are and which
nodes stand beside each.  It has no goal and knows no ranks: it meets all nodes that it can, and
keeps with each the path on which it was met first.  The search of `Graph.shortestPath?` passes over
nodes that are ranked after its goal and stops at the goal, and still shows the same path. -/

namespace WaitFor

open Relation

/-- A way down stays when a node that is not on it gets a parent. -/
theorem Parents.Descent.insert {parents : Parents} {v n x : NodeId} {nodes : List NodeId}
    (h : parents.Descent x nodes) (hv : v ∉ nodes) :
    Parents.Descent (Table.insert parents v n) x nodes := by
  induction h with
  | root hx =>
    refine .root ((Table.get?_insert ..).trans ?_)
    rw [if_neg fun heq => hv (List.mem_singleton.2 heq), hx]
  | child hx _ ih =>
    rw [List.mem_append, not_or, List.mem_singleton] at hv
    exact .child ((Table.get?_insert ..).trans ((if_neg hv.2).trans hx)) (ih hv.1)

namespace Wavefront

/-- The nodes that were met, each with the path on which it was met first. -/
abbrev Met : Type := Table NodeId (List NodeId)

/-- Meets the nodes `beside` the end of `path`, then those beside the nodes in the `queue`, each of
which stands there with its path.  A node that is met for the first time goes to the end of the
queue. -/
def spread (size : Nat) (next : NodeId → List NodeId) (met : Met) (path : List NodeId) :
    (beside : List NodeId) → (queue : List (NodeId × List NodeId)) → Met
  | [], [] => met
  | [], (n, path) :: queue => spread size next met path (next n) queue
  | v :: beside, queue =>
    if met.contains v ∨ size ≤ v.index then spread size next met path beside queue
    else spread size next (met.insert v (path ++ [v])) path beside (queue ++ [(v, path ++ [v])])
termination_by beside queue => (unseen size met.contains + queue.length, beside.length)
decreasing_by
  · exact Prod.Lex.left _ _ (by simp)
  · exact Prod.Lex.right _ (by simp)
  · next h =>
    simp only [not_or, Nat.not_le] at h
    have : unseen size (met.insert v (path ++ [v])).contains < unseen size met.contains := by
      refine @unseen_lt _ _ _ v (fun x hx => ?_) h.2 (by simpa using h.1) ?_
      · simp only [Table.contains, Table.get?_insert] at hx ⊢
        split <;> simp_all
      · simp [Table.contains, Table.get?_insert]
    refine Prod.Lex.right' _ ?_ (by simp)
    rw [List.length_append, List.length_singleton]
    omega

/-- The path from `a` on which `b` is met first, if it is met. -/
def path? (size : Nat) (next : NodeId → List NodeId) (a b : NodeId) : Option (List NodeId) :=
  if a.index < size then (spread size next (Table.empty.insert a [a]) [a] (next a) []).get? b
  else none

variable {size : Nat} {next : NodeId → List NodeId} {a b n v x : NodeId} {met : Met}
  {parents : Parents} {path nodes beside : List NodeId} {queue : List (NodeId × List NodeId)}

/-- With one more path, one more node is met. -/
theorem contains_insert :
    Table.contains (met.insert v nodes) x = true ↔ met.contains x = true ∨ x = v := by
  rw [Table.contains, Table.contains, Table.get?_insert]
  by_cases h : v = x
  · simp [h]
  · rw [if_neg h]
    exact (or_iff_left (Ne.symm h)).symm

/-- The path on which a node was met first stays with it. -/
theorem get?_spread (h : met.get? x = some nodes) :
    (spread size next met path beside queue).get? x = some nodes := by
  fun_induction spread size next met path beside queue with
  | case1 => exact h
  | case2 _ _ _ _ _ ih => exact ih h
  | case3 _ _ _ _ _ _ ih => exact ih h
  | case4 met path v beside queue hv ih =>
    refine ih ?_
    rw [Table.get?_insert, if_neg, h]
    rintro rfl
    exact hv (Or.inl (by rw [Table.contains, h]; rfl))

/-! ## Against a search with a goal -/

/-- What a search sees that may enter every node. -/
def field (size : Nat) (next : NodeId → List NodeId) : Scope where
  next := next
  enters v := v.index < size

/-- The tables have met the same nodes, and each node with a path is the last one on the way down to
it. -/
structure Charts (a : NodeId) (parents : Parents) (met : Met) : Prop where
  contains : ∀ v, met.contains v = true ↔ MetFrom a parents v
  descent : ∀ {v nodes}, met.get? v = some nodes →
    parents.Descent v nodes ∧ ∀ x ∈ nodes, met.contains x = true

namespace Charts

/-- At first only the start is met, on the path that ends there. -/
theorem start (a : NodeId) : Charts a .empty (Table.empty.insert a [a]) where
  contains v := by
    rw [contains_insert, MetFrom, or_comm]
    exact Iff.rfl
  descent := by
    intro v nodes h
    rw [Table.get?_insert] at h
    split at h
    · next hav =>
      obtain rfl := Option.some.inj h
      subst hav
      refine ⟨.root rfl, fun x hx => ?_⟩
      rw [List.mem_singleton.1 hx, contains_insert]
      exact Or.inr rfl
    · cases h

/-- A node that is met first from the end of `path` is met on that path, prolonged by itself. -/
theorem insert (h : Charts a parents met) (hn : met.get? n = some path)
    (hv : ¬ MetFrom a parents v) :
    Charts a (Table.insert parents v n) (met.insert v (path ++ [v])) where
  contains x := by rw [contains_insert, h.contains, Tree.met_insert]
  descent := by
    -- No way down that was there goes through `v`.
    have hkept : ∀ {x nodes}, met.get? x = some nodes →
        Parents.Descent (Table.insert parents v n) x nodes := by
      intro x nodes hx
      obtain ⟨hd, hmet⟩ := h.descent hx
      exact hd.insert fun hmem => hv ((h.contains v).1 (hmet v hmem))
    intro x nodes hx
    rw [Table.get?_insert] at hx
    split at hx
    · next hvx =>
      obtain rfl := Option.some.inj hx
      subst hvx
      refine ⟨.child ((Table.get?_insert ..).trans (if_pos rfl)) (hkept hn), fun y hy => ?_⟩
      rcases List.mem_append.1 hy with hy | hy
      · exact contains_insert.2 (Or.inl ((h.descent hn).2 y hy))
      · exact contains_insert.2 (Or.inr (List.mem_singleton.1 hy))
    · exact ⟨hkept hx, fun y hy => contains_insert.2 (Or.inl ((h.descent hx).2 y hy))⟩

end Charts

/-- A search for `b` that may enter every node takes these turns, and `b` is met on its path. -/
theorem exists_search_spread (hc : Charts a parents met) (hn : met.get? n = some path)
    (hb : ¬ MetFrom a parents b) (hqueue : ∀ e ∈ queue, met.get? e.1 = some e.2) :
    ∃ r, Search (field size next) a b parents n beside (queue.map Prod.fst) r ∧
      ∀ nodes, (spread size next met path beside queue).get? b = some nodes ↔
        r.2 = true ∧ r.1.Descent b nodes := by
  fun_induction spread size next met path beside queue generalizing parents n with
  | case1 met path =>
    refine ⟨_, .fail, fun nodes => iff_of_false (fun hget => hb ?_) (by simp)⟩
    rw [← hc.contains, Table.contains, hget]
    rfl
  | case2 met _ m path queue ih =>
    obtain ⟨hm, hqueue⟩ := List.forall_mem_cons.1 hqueue
    obtain ⟨r, hsearch, hr⟩ := ih hc hm hb hqueue
    exact ⟨r, .turn hsearch, hr⟩
  | case3 met path v beside queue hv ih =>
    obtain ⟨r, hsearch, hr⟩ := ih hc hn hb hqueue
    refine ⟨r, .pass (fun hfresh => ?_) hsearch, hr⟩
    rcases hv with hmet | hsize
    · exact hfresh.1 ((hc.contains v).1 hmet)
    · exact Nat.not_lt.2 hsize hfresh.2
  | case4 met path v beside queue hv ih =>
    rw [not_or, hc.contains, Nat.not_le] at hv
    have hc' := hc.insert hn hv.1
    have hself : (met.insert v (path ++ [v])).get? v = some (path ++ [v]) :=
      (Table.get?_insert ..).trans (if_pos rfl)
    by_cases hvb : v = b
    -- The search with a goal ends here; the path stays in the table.
    · subst hvb
      refine ⟨_, .reach hv, fun nodes => ?_⟩
      rw [get?_spread hself, Option.some.injEq, eq_self, true_and]
      exact ⟨fun h => h ▸ (hc'.descent hself).1, fun h => (hc'.descent hself).1.eq h⟩
    · have hkept : ∀ {x nodes}, met.get? x = some nodes →
          (met.insert v (path ++ [v])).get? x = some nodes := by
        intro x nodes hx
        rw [Table.get?_insert, if_neg, hx]
        rintro rfl
        exact hv.1 ((hc.contains v).1 (by rw [Table.contains, hx]; rfl))
      obtain ⟨r, hsearch, hr⟩ := ih hc' (hkept hn)
        (fun h => (Tree.met_insert.1 h).elim hb (Ne.symm hvb)) (by
          intro e he
          rcases List.mem_append.1 he with he | he
          · exact hkept (hqueue e he)
          · obtain rfl := List.mem_singleton.1 he
            exact hself)
      rw [List.map_append] at hsearch
      exact ⟨r, .meet hv hvb hsearch, hr⟩

/-- The path to a node is met by a search for that node. -/
theorem exists_search_path? (next : NodeId → List NodeId) (ha : a.index < size) (hne : a ≠ b) :
    ∃ r, Search (field size next) a b .empty a (next a) [] r ∧
      ∀ nodes, path? size next a b = some nodes ↔ r.2 = true ∧ r.1.Descent b nodes := by
  have hself : (Table.empty.insert a [a]).get? a = some [a] :=
    (Table.get?_insert ..).trans (if_pos rfl)
  have hb : ¬ MetFrom a .empty b := fun h => h.elim (Ne.symm hne) nofun
  rw [path?, if_pos ha]
  exact exists_search_spread (Charts.start a) hself hb (List.forall_mem_nil _)

/-- The path from an allocated node to itself is the node. -/
theorem path?_self (ha : a.index < size) : path? size next a a = some [a] := by
  rw [path?, if_pos ha]
  exact get?_spread ((Table.get?_insert ..).trans (if_pos rfl))

end Wavefront

/-! ## The path that a graph shows -/

namespace Graph

open Wavefront (path? field)

variable {g : Graph} {a b : NodeId} {nodes : List NodeId}

/-- Of the nodes that lead to `b`, the plain search sees as much as the one that enters these only.
-/
theorem image_field (hg : g.Sound) (b : NodeId) :
    (field g.nodeCount g.successors).Image (g.wayTo b) id fun x => g.Leads x b where
  injective := Function.injective_id
  next _ := (List.map_id _).symm
  enters _ hxy := (and_iff_right (contains_iff.1 (hg.contains_right hxy))).symm
  closed hxy hy := hy.head hxy.1

/-- The plain search meets what edges lead to, on the path that the search with a goal finds. -/
theorem path?_eq_some_iff (hg : g.Sound) :
    path? g.nodeCount g.successors a b = some nodes ↔
      g.contains a = true ∧ g.Leads a b ∧ (g.parentsTo a b).1.Descent b nodes := by
  by_cases ha : g.contains a = true
  · by_cases hne : a = b
    · subst hne
      rw [Wavefront.path?_self (contains_iff.1 ha), parentsTo, if_pos rfl, Option.some.injEq]
      refine ⟨fun h => h ▸ ⟨ha, .refl g a, .root rfl⟩, fun h => ?_⟩
      exact Parents.Descent.eq (.root rfl) h.2.2
    · obtain ⟨r, hsearch, hr⟩ :=
        Wavefront.exists_search_path? g.successors (contains_iff.1 ha) hne
      obtain ⟨hfound, hmissed⟩ := hsearch.shortest (.start hne)
      have hleads : r.2 = true ↔ g.Leads a b := by
        constructor
        · intro hreached
          obtain ⟨depth, htree, hmet, -⟩ := hfound hreached
          obtain ⟨hpath, -⟩ :=
            htree.path_of_descent (htree.descent_trace hmet (Nat.le_refl _)) hmet
          exact (hpath.mono fun x y hxy => hxy.1).reflTransGen
        · intro hleads
          by_contra hnot
          refine hmissed (by simpa using hnot) (ReflTransGen.mono (fun x y hxy => ?_) a b hleads)
          exact ⟨hxy, contains_iff.1 (hg.contains_right hxy)⟩
      rw [hr nodes, hleads, and_iff_right ha]
      refine and_congr_right fun h => ?_
      have hb := hg.contains_of_leads h ha
      -- Both searches go the way of the search that enters only what leads to `b`.
      have hsame : ∀ {nodes nodes'}, r.1.Descent b nodes →
          (g.parentsTo a b).1.Descent b nodes' → nodes = nodes' := by
        intro nodes nodes' hd hd'
        obtain ⟨r₁, h₁, hdown⟩ := hsearch.image_descent (image_field hg b) h (.refl g b) hne
          (hleads.2 h) hd
        obtain ⟨r₂, h₂, hdown'⟩ := (g.search_parentsTo hne).image_descent
          ((Embeds.id g).image_scope hg hb) h (.refl g b) hne (parentsTo_of_leads hg h).1 hd'
        obtain rfl := h₁.eq h₂
        simpa using hdown.eq hdown'
      obtain ⟨depth, htree, hmet, -⟩ := hfound (hleads.2 h)
      have hd := htree.descent_trace hmet (Nat.le_refl _)
      obtain ⟨nodes', hd', -⟩ := exists_shortestPath hg ha h
      constructor
      · exact fun h => hsame h hd' ▸ hd'
      · exact fun h => hsame hd h ▸ hd
  · rw [path?, if_neg (mt contains_iff.2 ha)]
    exact iff_of_false (by simp) fun h => ha h.1

/-- The search among the nodes ranked before its goal shows what the plain search finds. -/
theorem shortestPath?_eq_path? (hg : g.Sound) (a b : NodeId) (maxLength : Nat) :
    g.shortestPath? a b maxLength =
      (path? g.nodeCount g.successors a b).map fun nodes => .ofNodes nodes maxLength := by
  cases hpath : path? g.nodeCount g.successors a b with
  | some nodes =>
    obtain ⟨ha, h, hd⟩ := (path?_eq_some_iff hg).1 hpath
    exact shortestPath?_eq_of_descent hg ha h hd maxLength
  | none =>
    rw [Option.map_none, ← Option.not_isSome_iff_eq_none, isSome_shortestPath?_iff hg]
    rintro ⟨ha, -, h⟩
    obtain ⟨nodes, hd, -⟩ := exists_shortestPath hg ha h
    rw [(path?_eq_some_iff hg).2 ⟨ha, h, hd⟩] at hpath
    cases hpath

/-- After any requests, a path is shown exactly if both nodes are allocated and edges lead from the
one to the other, and it is the path that a breadth-first search finds which never looks at ranks:
a path of edges such that none is shorter, cut to its first nodes.  So the ranks do not show in it;
another sound graph with the same nodes beside each node shows the same path. -/
theorem shortestPath?_ignores_ranks {requests : List Request} {answers : List Answer}
    (h : Graph.empty.serveAll requests = some (answers, g)) (a b : NodeId) :
    let plain := path? g.nodeCount g.successors a b
    let edge := fun x y => g.hasEdge x y = true
    (∀ maxLength, g.shortestPath? a b maxLength = none ↔
      g.contains a = false ∨ g.contains b = false ∨ ¬ ReflTransGen edge a b) ∧
    (∀ maxLength, g.shortestPath? a b maxLength =
      plain.map fun nodes => ⟨nodes.take maxLength, maxLength < nodes.length⟩) ∧
    (∀ nodes, plain = some nodes →
      (nodes.IsChain edge ∧ nodes.head? = some a ∧ nodes.getLast? = some b) ∧
      (∀ other : List NodeId, other.IsChain edge → other.head? = some a →
        other.getLast? = some b → nodes.length ≤ other.length) ∧
      (a = b → nodes = [a])) ∧
    ∀ g' : Graph, g'.Sound → g'.nodeCount = g.nodeCount → g'.successors = g.successors →
      ∀ maxLength, g'.shortestPath? a b maxLength = g.shortestPath? a b maxLength := by
  intro plain edge
  have hg : g.Sound := Sound.empty.serveAll h
  have hedge : edge = g.Edge := by
    funext x y
    exact propext hg.hasEdge_iff
  rw [hedge]
  refine ⟨fun maxLength => ?_, shortestPath?_eq_path? hg a b, fun nodes hplain => ?_, ?_⟩
  · rw [← Option.not_isSome_iff_eq_none, isSome_shortestPath?_iff hg]
    simp only [not_and_or, Bool.not_eq_true]
    rfl
  · obtain ⟨ha, hleads, hd⟩ := (path?_eq_some_iff hg).1 hplain
    obtain ⟨nodes', hd', -, hpath, hshort⟩ := exists_shortestPath hg ha hleads
    obtain rfl := hd.eq hd'
    refine ⟨Path.iff_isChain.1 hpath, fun other hchain hhead hlast => ?_, fun hab => ?_⟩
    · exact hshort other (Path.of_isChain hchain hhead hlast)
    · subst hab
      exact Option.some.inj (hplain.symm.trans (Wavefront.path?_self (contains_iff.1 ha)))
  · intro g' hg' hcount hsucc maxLength
    rw [shortestPath?_eq_path? hg', shortestPath?_eq_path? hg, hcount, hsucc]

/-- Node 3 has edges to 2 and to 1, in this order, and both have one to 0; all were made against the
order.  The path through 2 is shown, though 1 is ranked before it. -/
theorem shortestPath?_ignores_ranks_of_diamond :
    ∃ answers g,
      Graph.empty.serveAll [.addNode, .addNode, .addNode, .addNode, .insertEdge ⟨3⟩ ⟨2⟩,
        .insertEdge ⟨3⟩ ⟨1⟩, .insertEdge ⟨1⟩ ⟨0⟩, .insertEdge ⟨2⟩ ⟨0⟩] = some (answers, g) ∧
      path? g.nodeCount g.successors ⟨3⟩ ⟨0⟩ = some [⟨3⟩, ⟨2⟩, ⟨0⟩] ∧
      g.shortestPath? ⟨3⟩ ⟨0⟩ 2 = some ⟨[⟨3⟩, ⟨2⟩], true⟩ := by
  have h : Graph.empty.serveAll [.addNode, .addNode, .addNode, .addNode, .insertEdge ⟨3⟩ ⟨2⟩,
      .insertEdge ⟨3⟩ ⟨1⟩, .insertEdge ⟨1⟩ ⟨0⟩, .insertEdge ⟨2⟩ ⟨0⟩] =
      some ([.node ⟨0⟩, .node ⟨1⟩, .node ⟨2⟩, .node ⟨3⟩, .present true, .present true,
        .present true, .present true],
        ⟨#[⟨3, [⟨1⟩, ⟨2⟩], []⟩, ⟨1, [⟨3⟩], [⟨0⟩]⟩, ⟨2, [⟨3⟩], [⟨0⟩]⟩, ⟨0, [], [⟨2⟩, ⟨1⟩]⟩], 4,
          []⟩) := by
    cbv
  obtain ⟨-, hshown, -, -⟩ := shortestPath?_ignores_ranks h ⟨3⟩ ⟨0⟩
  have hplain : path? 4 (Graph.successors ⟨#[⟨3, [⟨1⟩, ⟨2⟩], []⟩, ⟨1, [⟨3⟩], [⟨0⟩]⟩,
      ⟨2, [⟨3⟩], [⟨0⟩]⟩, ⟨0, [], [⟨2⟩, ⟨1⟩]⟩], 4, []⟩) ⟨3⟩ ⟨0⟩ = some [⟨3⟩, ⟨2⟩, ⟨0⟩] := by
    cbv
  refine ⟨_, _, h, hplain, ?_⟩
  rw [hshown 2]
  exact congrArg (Option.map _) hplain

end Graph

end WaitFor
