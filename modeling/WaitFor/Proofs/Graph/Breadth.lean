import WaitFor.Graph.Route
import WaitFor.Proofs.Graph.Sound
import WaitFor.Proofs.Paths

/-! # Breadth-first searches

`Search` spells out the turns that a breadth-first search takes, one neighbor at a time.  The
parents that it gives make a tree (`Tree`), in which each node has a depth one above that of its
parent; `Levels` adds what the search keeps up on its way: the queue is sorted by depth, and every
path that is not longer than the current depth has been followed.  So the tree's path to the goal
is a shortest one (`Search.shortest`), and the goal is missed only if no path leads to it.
-/

namespace WaitFor

open Relation

/-! ## Following parents -/

namespace Parents

/-- The nodes from one without a parent down to a node, each the parent of the next. -/
inductive Descent (parents : Parents) : (last : NodeId) → List NodeId → Prop
  | root {v : NodeId} (h : parents.get? v = none) : Descent parents v [v]
  | child {v n : NodeId} {nodes : List NodeId} (h : parents.get? v = some n)
      (rest : Descent parents n nodes) : Descent parents v (nodes ++ [v])

/-- There is one way down to a node. -/
theorem Descent.eq {parents : Parents} {v : NodeId} {nodes nodes' : List NodeId}
    (h : parents.Descent v nodes) (h' : parents.Descent v nodes') : nodes = nodes' := by
  induction h generalizing nodes' with
  | root hv =>
    cases h' with
    | root => rfl
    | child hv' => cases hv.symm.trans hv'
  | child hv _ ih =>
    cases h' with
    | root hv' => cases hv.symm.trans hv'
    | child hv' rest =>
      cases hv.symm.trans hv'
      rw [ih rest]

end Parents

/-! ## The tree of a search -/

/-- What a breadth-first search sees: the nodes beside a node, and the nodes that it may enter. -/
structure Scope where
  next : NodeId → List NodeId
  enters : NodeId → Prop

/-- A step that a search may take. -/
def Scope.Step (w : Scope) (x y : NodeId) : Prop := y ∈ w.next x ∧ w.enters y

/-- The node was met by a search from `a`. -/
def MetFrom (a : NodeId) (parents : Parents) (v : NodeId) : Prop :=
  v = a ∨ parents.contains v = true

/-- The parents of the nodes met from `a` lead back to `a`, by as many steps as `depth` says. -/
structure Tree (w : Scope) (a : NodeId) (parents : Parents) (depth : NodeId → Nat) : Prop where
  root : parents.get? a = none
  depth_root : depth a = 0
  parent : ∀ {v n}, parents.get? v = some n →
    w.Step n v ∧ MetFrom a parents n ∧ depth v = depth n + 1
  depth_le : ∀ {v}, MetFrom a parents v → depth v ≤ parents.size

namespace Tree

variable {w : Scope} {a v n : NodeId} {parents : Parents} {depth : NodeId → Nat}

/-- With one more parent, one more node is met. -/
theorem met_insert {x : NodeId} :
    MetFrom a (parents.insert v n) x ↔ MetFrom a parents x ∨ x = v := by
  rw [MetFrom, MetFrom, Table.contains, Table.get?_insert, or_assoc]
  refine or_congr Iff.rfl ?_
  by_cases h : v = x
  · simp [h]
  · rw [if_neg h]
    exact (or_iff_left (Ne.symm h)).symm

/-- At first the tree is its root. -/
theorem start (w : Scope) (a : NodeId) : Tree w a .empty fun _ => 0 where
  root := rfl
  depth_root := rfl
  parent h := by cases h
  depth_le _ := Nat.le_refl _

/-- A node met for the first time hangs below the node that it was met from. -/
theorem insert (h : Tree w a parents depth) (hn : MetFrom a parents n) (hv : ¬ MetFrom a parents v)
    (hstep : w.Step n v) :
    Tree w a (parents.insert v n) (Function.update depth v (depth n + 1)) := by
  have hold : ∀ {x}, MetFrom a parents x → Function.update depth v (depth n + 1) x = depth x := by
    intro x hx
    refine Function.update_of_ne ?_ _ _
    rintro rfl
    exact hv hx
  have hva : v ≠ a := fun hva => hv (Or.inl hva)
  refine ⟨?_, ?_, ?_, ?_⟩
  · rw [Table.get?_insert, if_neg hva, h.root]
  · rw [hold (Or.inl rfl), h.depth_root]
  · intro x m hx
    rw [Table.get?_insert] at hx
    split at hx
    · next hvx =>
      obtain rfl := Option.some.inj hx
      subst hvx
      exact ⟨hstep, met_insert.2 (Or.inl hn), by rw [Function.update_self, hold hn]⟩
    · have hmet : MetFrom a parents x := Or.inr (by rw [Table.contains, hx]; rfl)
      obtain ⟨hxm, hm, hdepth⟩ := h.parent hx
      exact ⟨hxm, met_insert.2 (Or.inl hm), by rw [hold hmet, hold hm, hdepth]⟩
  · intro x hx
    have hsize : (parents.insert v n).size = parents.size + 1 := by
      rw [Table.size_insert, if_neg fun hc => hv (Or.inr hc)]
    rw [hsize]
    rcases met_insert.1 hx with hx | rfl
    · rw [hold hx]
      exact Nat.le_succ_of_le (h.depth_le hx)
    · rw [Function.update_self]
      exact Nat.succ_le_succ (h.depth_le hn)

/-- The way down to a node is a path of steps, as long as the node is deep. -/
theorem path_of_descent (h : Tree w a parents depth) {nodes : List NodeId}
    (hd : parents.Descent v nodes) (hv : MetFrom a parents v) :
    Path w.Step a v nodes ∧ nodes.length = depth v + 1 := by
  induction hd with
  | @root v hroot =>
    rcases hv with rfl | hv
    · exact ⟨.single, by rw [h.depth_root]; rfl⟩
    · rw [Table.contains, hroot] at hv
      cases hv
  | child hparent _ ih =>
    obtain ⟨hstep, hmet, hdepth⟩ := h.parent hparent
    obtain ⟨hpath, hlength⟩ := ih hmet
    exact ⟨hpath.concat hstep, by rw [List.length_append, hlength, hdepth]; rfl⟩

/-- Parents are traced back to the root in as many steps as there are parents. -/
theorem descent_trace (h : Tree w a parents depth) (hv : MetFrom a parents v) {steps : Nat}
    (hsteps : depth v ≤ steps) : parents.Descent v (parents.trace steps v).reverse := by
  induction steps generalizing v with
  | zero =>
    have hroot : parents.get? v = none := by
      cases hp : parents.get? v with
      | none => rfl
      | some n => have := (h.parent hp).2.2; omega
    exact .root hroot
  | succ steps ih =>
    rw [Parents.trace]
    cases hp : parents.get? v with
    | none => exact .root hp
    | some n =>
      obtain ⟨-, hmet, hdepth⟩ := h.parent hp
      rw [List.reverse_cons]
      exact .child hp (ih hmet (by omega))

end Tree

/-! ## The turns of a search -/

/-- A search that has given `parents` may enter `v` for the first time. -/
def Scope.Fresh (w : Scope) (a : NodeId) (parents : Parents) (v : NodeId) : Prop :=
  ¬ MetFrom a parents v ∧ w.enters v

/-- The turns of a search from `a` for `b`, from a state to its result.  In the state, the nodes
`beside` the current node and then those in the `queue` are still to be looked at.  The search fails
where nothing is left to look at; it turns to the next node of the queue, passes over a node, or
meets it for the first time, and ends when that is the goal. -/
inductive Search (w : Scope) (a b : NodeId) :
    (parents : Parents) → (current : NodeId) → (beside queue : List NodeId) → Parents × Bool → Prop
  | fail {parents : Parents} {n : NodeId} : Search w a b parents n [] [] (parents, false)
  | turn {parents : Parents} {n m : NodeId} {queue : List NodeId} {r : Parents × Bool}
      (rest : Search w a b parents m (w.next m) queue r) : Search w a b parents n [] (m :: queue) r
  | pass {parents : Parents} {n v : NodeId} {beside queue : List NodeId} {r : Parents × Bool}
      (hv : ¬ w.Fresh a parents v) (rest : Search w a b parents n beside queue r) :
      Search w a b parents n (v :: beside) queue r
  | reach {parents : Parents} {n : NodeId} {beside queue : List NodeId}
      (hb : w.Fresh a parents b) :
      Search w a b parents n (b :: beside) queue (parents.insert b n, true)
  | meet {parents : Parents} {n v : NodeId} {beside queue : List NodeId} {r : Parents × Bool}
      (hv : w.Fresh a parents v) (hvb : v ≠ b)
      (rest : Search w a b (parents.insert v n) n beside (queue ++ [v]) r) :
      Search w a b parents n (v :: beside) queue r

/-- What a search keeps up: the tree so far, with the depths in the queue, and the paths that have
been followed to their ends. -/
structure Levels (w : Scope) (a b : NodeId) (parents : Parents) (n : NodeId)
    (beside queue : List NodeId) (depth : NodeId → Nat) : Prop where
  tree : Tree w a parents depth
  goal : ¬ MetFrom a parents b
  current : MetFrom a parents n
  beside_subset : beside ⊆ w.next n
  depth_le : ∀ {v}, MetFrom a parents v → depth v ≤ depth n + 1
  sorted : queue.Pairwise fun x y => depth x ≤ depth y
  queued : ∀ {v}, v ∈ queue → MetFrom a parents v ∧ depth n ≤ depth v
  closed : ∀ {x y}, MetFrom a parents x → x ∉ queue → w.Step x y →
    MetFrom a parents y ∧ depth y ≤ depth x + 1 ∨ x = n ∧ y ∈ beside
  followed : ∀ {x nodes}, Path w.Step a x nodes → nodes.length ≤ depth n + 1 →
    MetFrom a parents x ∧ depth x + 1 ≤ nodes.length

namespace Levels

variable {w : Scope} {a b n m v : NodeId} {parents : Parents} {beside queue : List NodeId}
  {depth : NodeId → Nat}

/-- At first only the start is met, at depth zero. -/
theorem start (hne : a ≠ b) : Levels w a b .empty a (w.next a) [] fun _ => 0 where
  tree := .start w a
  goal h := by
    rcases h with rfl | h
    · exact hne rfl
    · cases h
  current := Or.inl rfl
  beside_subset := List.Subset.refl _
  depth_le _ := Nat.zero_le _
  sorted := .nil
  queued h := by cases h
  closed hx _ hxy := by
    rcases hx with rfl | hx
    · exact Or.inr ⟨rfl, hxy.1⟩
    · cases hx
  followed h hlen := by
    cases h with
    | single => exact ⟨Or.inl rfl, Nat.le_refl _⟩
    | concat h _ =>
      have := h.length_pos
      rw [List.length_append, List.length_singleton] at hlen
      omega

/-- When the queue is turned to, all shorter paths have been followed. -/
theorem turn (h : Levels w a b parents n [] (m :: queue) depth) :
    Levels w a b parents m (w.next m) queue depth := by
  obtain ⟨hm, hnm⟩ := h.queued List.mem_cons_self
  obtain ⟨hfirst, hsorted⟩ := List.pairwise_cons.1 h.sorted
  have hmn := h.depth_le hm
  have hclosed : ∀ {x y}, MetFrom a parents x → x ∉ m :: queue → w.Step x y →
      MetFrom a parents y ∧ depth y ≤ depth x + 1 := by
    intro x y hx hq hxy
    exact (h.closed hx hq hxy).resolve_right fun hr => List.not_mem_nil hr.2
  refine ⟨h.tree, h.goal, hm, List.Subset.refl _, ?_, hsorted, ?_, ?_, ?_⟩
  · intro v hv
    have := h.depth_le hv
    omega
  · exact fun hv => ⟨(h.queued (List.mem_cons_of_mem _ hv)).1, hfirst _ hv⟩
  · intro x y hx hq hxy
    by_cases hxm : x = m
    · exact Or.inr ⟨hxm, hxm ▸ hxy.1⟩
    · exact Or.inl (hclosed hx (by simp [hxm, hq]) hxy)
  · intro x nodes hpath hlen
    by_cases hshort : nodes.length ≤ depth n + 1
    · exact h.followed hpath hshort
    -- The path is one longer than those followed so far: its last node but one is not in the queue.
    · cases hpath with
      | single => exact absurd (Nat.le_add_left 1 _) hshort
      | @concat z _ nodes hpath hzx =>
        rw [List.length_append, List.length_singleton] at hlen hshort ⊢
        obtain ⟨hz, hzlen⟩ := h.followed hpath (by omega)
        have hzq : z ∉ m :: queue := by
          intro hzq
          rcases List.mem_cons.1 hzq with rfl | hzq
          · omega
          · have := hfirst z hzq
            omega
        obtain ⟨hx, hxz⟩ := hclosed hz hzq hzx
        exact ⟨hx, by omega⟩

/-- A node that is passed over leaves no step undone. -/
theorem pass (h : Levels w a b parents n (v :: beside) queue depth)
    (hv : ¬ w.Fresh a parents v) : Levels w a b parents n beside queue depth := by
  refine { h with beside_subset := (List.cons_subset.1 h.beside_subset).2, closed := ?_ }
  intro x y hx hq hxy
  rcases h.closed hx hq hxy with hy | ⟨rfl, hy⟩
  · exact Or.inl hy
  · rcases List.mem_cons.1 hy with rfl | hy
    · have hmet : MetFrom a parents y := by
        by_contra hmet
        exact hv ⟨hmet, hxy.2⟩
      exact Or.inl ⟨hmet, h.depth_le hmet⟩
    · exact Or.inr ⟨rfl, hy⟩

/-- A node that is met is one step away from the current node. -/
theorem step_of_fresh (h : Levels w a b parents n (v :: beside) queue depth)
    (hv : w.Fresh a parents v) : w.Step n v :=
  ⟨h.beside_subset List.mem_cons_self, hv.2⟩

/-- A node that is met goes to the end of the queue, where no node is deeper. -/
theorem meet (h : Levels w a b parents n (v :: beside) queue depth) (hv : w.Fresh a parents v)
    (hvb : v ≠ b) :
    Levels w a b (parents.insert v n) n beside (queue ++ [v])
      (Function.update depth v (depth n + 1)) := by
  set depth' := Function.update depth v (depth n + 1)
  have hold : ∀ {x}, MetFrom a parents x → depth' x = depth x := by
    intro x hx
    refine Function.update_of_ne ?_ _ _
    rintro rfl
    exact hv.1 hx
  have hnew : depth' v = depth n + 1 := Function.update_self ..
  have hn : depth' n = depth n := hold h.current
  have hle : ∀ {x}, MetFrom a (parents.insert v n) x → depth' x ≤ depth n + 1 := by
    intro x hx
    rcases Tree.met_insert.1 hx with hx | rfl
    · exact hold hx ▸ h.depth_le hx
    · exact Nat.le_of_eq hnew
  have hqueued : ∀ {x}, x ∈ queue → depth' x = depth x := fun hx => hold (h.queued hx).1
  refine ⟨h.tree.insert h.current hv.1 (h.step_of_fresh hv), ?_, ?_,
    (List.cons_subset.1 h.beside_subset).2, ?_, ?_, ?_, ?_, ?_⟩
  · intro hb
    exact (Tree.met_insert.1 hb).elim h.goal (Ne.symm hvb)
  · exact Tree.met_insert.2 (Or.inl h.current)
  · rw [hn]
    exact hle
  · refine List.pairwise_append.2 ⟨?_, List.pairwise_singleton _ _, ?_⟩
    · refine h.sorted.imp_of_mem fun hx hy hxy => ?_
      rwa [hqueued hx, hqueued hy]
    · intro x hx y hy
      rw [List.mem_singleton.1 hy, hnew, hqueued hx]
      exact h.depth_le (h.queued hx).1
  · intro x hx
    rw [hn]
    rcases List.mem_append.1 hx with hx | hx
    · rw [hqueued hx]
      exact ⟨Tree.met_insert.2 (Or.inl (h.queued hx).1), (h.queued hx).2⟩
    · obtain rfl := List.mem_singleton.1 hx
      rw [hnew]
      exact ⟨Tree.met_insert.2 (Or.inr rfl), Nat.le_succ _⟩
  · intro x y hx hq hxy
    rw [List.mem_append, not_or, List.mem_singleton] at hq
    have hx := (Tree.met_insert.1 hx).resolve_right hq.2
    rcases h.closed hx hq.1 hxy with ⟨hy, hdepth⟩ | ⟨rfl, hy⟩
    · exact Or.inl ⟨Tree.met_insert.2 (Or.inl hy), by rwa [hold hx, hold hy]⟩
    · rcases List.mem_cons.1 hy with rfl | hy
      · exact Or.inl ⟨Tree.met_insert.2 (Or.inr rfl), by rw [hnew, hn]⟩
      · exact Or.inr ⟨rfl, hy⟩
  · intro x nodes hpath hlen
    obtain ⟨hx, hxlen⟩ := h.followed hpath (hn ▸ hlen)
    exact ⟨Tree.met_insert.2 (Or.inl hx), by rwa [hold hx]⟩

/-- A search that has nothing left to look at has met all that it can step to. -/
theorem met_of_reflTransGen (h : Levels w a b parents n [] [] depth) {x : NodeId}
    (hx : ReflTransGen w.Step a x) : MetFrom a parents x := by
  induction hx with
  | refl => exact Or.inl rfl
  | tail _ hxy ih =>
    exact ((h.closed ih List.not_mem_nil hxy).resolve_right fun hr => List.not_mem_nil hr.2).1

end Levels

namespace Search

variable {w : Scope} {a b n : NodeId} {parents : Parents} {beside queue : List NodeId}
  {depth : NodeId → Nat} {r : Parents × Bool}

/-- A search that meets the goal has it in its tree, no deeper than any path is long; a search that
fails has no path to follow. -/
theorem shortest (h : Search w a b parents n beside queue r)
    (hl : Levels w a b parents n beside queue depth) :
    (r.2 = true → ∃ depth', Tree w a r.1 depth' ∧ MetFrom a r.1 b ∧
      ∀ nodes, Path w.Step a b nodes → depth' b + 1 ≤ nodes.length) ∧
    (r.2 = false → ¬ ReflTransGen w.Step a b) := by
  induction h generalizing depth with
  | fail => exact ⟨by simp, fun _ hb => hl.goal (hl.met_of_reflTransGen hb)⟩
  | turn _ ih => exact ih hl.turn
  | pass hv _ ih => exact ih (hl.pass hv)
  | meet hv hvb _ ih => exact ih (hl.meet hv hvb)
  | @reach parents n beside queue hb =>
    refine ⟨fun _ => ⟨_, hl.tree.insert hl.current hb.1 (hl.step_of_fresh hb),
      Tree.met_insert.2 (Or.inr rfl), fun nodes hpath => ?_⟩, by simp⟩
    rw [Function.update_self]
    by_contra hlen
    exact hl.goal (hl.followed hpath (by omega)).1

end Search

/-! ## The search of a graph -/

namespace Graph

variable {g : Graph} {a b n : NodeId} {parents : Parents}

/-- What the search for `b` sees of the graph. -/
def scope (g : Graph) (b : NodeId) : Scope where
  next := g.successors
  enters v := g.rank v ≤ g.rank b

/-- What the search passes over are the nodes that it may not enter for the first time. -/
theorem not_fresh_iff {v : NodeId} :
    ¬ (g.scope b).Fresh a parents v ↔
      v = a ∨ parents.contains v ∨ g.rank b < g.rank v := by
  simp only [Scope.Fresh, scope, MetFrom, not_and_or, not_not, Nat.not_le, or_assoc]

/-- Looking at the nodes beside a node takes these turns. -/
theorem search_discover {beside met queue : List NodeId} {r : Parents × Bool}
    (hreached : (g.discover a b n parents met beside).reached = true →
      r = ((g.discover a b n parents met beside).parents, true))
    (hrest : (g.discover a b n parents met beside).reached = false →
      Search (g.scope b) a b (g.discover a b n parents met beside).parents n []
        (queue ++ (g.discover a b n parents met beside).met) r) :
    Search (g.scope b) a b parents n beside (queue ++ met) r := by
  induction beside generalizing parents met with
  | nil => exact hrest rfl
  | cons v beside ih =>
    rw [discover] at hreached hrest
    by_cases hv : v = a ∨ parents.contains v ∨ g.rank b < g.rank v
    · rw [if_pos hv] at hreached hrest
      exact .pass (not_fresh_iff.2 hv) (ih hreached hrest)
    · rw [if_neg hv] at hreached hrest
      have hfresh : (g.scope b).Fresh a parents v := by
        by_contra hfresh
        exact hv (not_fresh_iff.1 hfresh)
      by_cases hvb : v = b
      · subst hvb
        rw [if_pos rfl] at hreached
        rw [hreached rfl]
        exact .reach hfresh
      · rw [if_neg hvb] at hreached hrest
        have hqueue := ih hreached hrest
        rw [← List.append_assoc] at hqueue
        exact .meet hfresh hvb hqueue

/-- The search takes these turns. -/
theorem search_explore (g : Graph) (a b n : NodeId) (parents : Parents) (queue : List NodeId) :
    Search (g.scope b) a b parents n [] queue (g.explore a b parents queue) := by
  fun_induction g.explore a b parents queue generalizing n with
  | case1 => exact .fail
  | case2 parents m queue d hreached =>
    have hbeside : Search (g.scope b) a b parents m (g.successors m) (queue ++ [])
        (d.parents, true) :=
      search_discover (fun _ => rfl) fun hnot => absurd hreached (by simp [d, hnot])
    rw [List.append_nil] at hbeside
    exact .turn hbeside
  | case3 parents m queue d hreached ih =>
    have hbeside : Search (g.scope b) a b parents m (g.successors m) (queue ++ [])
        (g.explore a b d.parents (queue ++ d.met)) :=
      search_discover (fun h => absurd h hreached) fun _ => ih m
    rw [List.append_nil] at hbeside
    exact .turn hbeside

/-- A search between two nodes starts beside the first. -/
theorem search_parentsTo (hne : a ≠ b) :
    Search (g.scope b) a b .empty a (g.successors a) [] (g.parentsTo a b) := by
  rw [parentsTo, if_neg hne]
  have h := g.search_explore a b a .empty [a]
  cases h with
  | turn rest => exact rest

/-- A search that meets its goal has it in its tree. -/
theorem tree_of_reached (h : (g.parentsTo a b).2 = true) :
    ∃ depth, Tree (g.scope b) a (g.parentsTo a b).1 depth ∧ MetFrom a (g.parentsTo a b).1 b := by
  by_cases hne : a = b
  · rw [parentsTo, if_pos hne]
    exact ⟨_, .start _ a, Or.inl hne.symm⟩
  · obtain ⟨hfound, -⟩ := (g.search_parentsTo hne).shortest (.start hne)
    obtain ⟨depth, htree, hmet, -⟩ := hfound h
    exact ⟨depth, htree, hmet⟩

/-- The search meets its goal exactly if it can step to it. -/
theorem reached_iff : (g.parentsTo a b).2 = true ↔ ReflTransGen (g.scope b).Step a b := by
  constructor
  · intro h
    obtain ⟨depth, htree, hmet⟩ := tree_of_reached h
    obtain ⟨hpath, -⟩ := htree.path_of_descent (htree.descent_trace hmet (Nat.le_refl _)) hmet
    exact hpath.reflTransGen
  · intro h
    by_cases hne : a = b
    · rw [parentsTo, if_pos hne]
    · obtain ⟨-, hmissed⟩ := (g.search_parentsTo hne).shortest (.start hne)
      by_contra hnot
      exact hmissed (by simpa using hnot) h

/-! ## Shortest paths -/

variable {nodes : List NodeId}

/-- In a sound graph, the nodes on the way to `b` are among those that the search for `b` may
enter. -/
theorem path_step_iff (hg : g.Sound) : Path (g.scope b).Step a b nodes ↔ Path g.Edge a b nodes := by
  refine ⟨fun h => h.mono fun x y hxy => hxy.1, fun h => ?_⟩
  suffices hsteps : ∀ {x nodes}, Path g.Edge a x nodes → g.Leads x b →
      Path (g.scope b).Step a x nodes from hsteps h (.refl g b)
  intro x nodes hx hxb
  induction hx with
  | single => exact .single
  | concat _ hxy ih =>
    exact (ih (hxb.head hxy)).concat ⟨hxy, hg.rank_le_of_leads hxb⟩

/-- A search along existing edges meets its goal, no deeper in its tree than any path is long. -/
theorem parentsTo_of_leads (hg : g.Sound) (h : g.Leads a b) :
    (g.parentsTo a b).2 = true ∧ ∃ depth, Tree (g.scope b) a (g.parentsTo a b).1 depth ∧
      MetFrom a (g.parentsTo a b).1 b ∧
      ∀ nodes, Path g.Edge a b nodes → depth b + 1 ≤ nodes.length := by
  by_cases hne : a = b
  · rw [parentsTo, if_pos hne]
    exact ⟨rfl, _, .start _ a, Or.inl hne.symm, fun nodes hpath => hpath.length_pos⟩
  · obtain ⟨hfound, hmissed⟩ := (g.search_parentsTo hne).shortest (.start hne)
    have hreached : (g.parentsTo a b).2 = true := by
      by_contra hnot
      obtain ⟨nodes, hpath⟩ := Path.exists_of_reflTransGen h
      exact hmissed (by simpa using hnot) ((path_step_iff hg).2 hpath).reflTransGen
    refine ⟨hreached, ?_⟩
    simpa only [path_step_iff hg] using hfound hreached

/-- The path that is shown to a goal that was met. -/
theorem shortestPath?_eq_of_reached (ha : g.contains a = true) (hb : g.contains b = true)
    (hrank : g.rank a ≤ g.rank b) (hreached : (g.parentsTo a b).2 = true) (maxLength : Nat) :
    g.shortestPath? a b maxLength =
      some (.ofNodes ((g.parentsTo a b).1.trace (g.parentsTo a b).1.size b).reverse maxLength) := by
  rw [shortestPath?, if_neg (by simp [ha, hb]), if_neg (by omega)]
  simp only [hreached, if_true]

/-- The path that is shown is the way down to its end in the tree of the search. -/
theorem shortestPath?_eq_of_descent (hg : g.Sound) (ha : g.contains a = true) (h : g.Leads a b)
    (hd : (g.parentsTo a b).1.Descent b nodes) (maxLength : Nat) :
    g.shortestPath? a b maxLength = some (.ofNodes nodes maxLength) := by
  obtain ⟨hreached, depth, htree, hmet, -⟩ := parentsTo_of_leads hg h
  have hb := hg.contains_of_leads h ha
  have hrank := hg.rank_le_of_leads h
  rw [shortestPath?_eq_of_reached ha hb hrank hreached,
    hd.eq (htree.descent_trace hmet (htree.depth_le hmet))]

/-- Where edges lead from `a` to `b`, the search finds a path along them, and none is shorter. -/
theorem exists_shortestPath (hg : g.Sound) (ha : g.contains a = true) (h : g.Leads a b) :
    ∃ nodes, (g.parentsTo a b).1.Descent b nodes ∧
      (∀ maxLength, g.shortestPath? a b maxLength = some (.ofNodes nodes maxLength)) ∧
      Path g.Edge a b nodes ∧ ∀ other, Path g.Edge a b other → nodes.length ≤ other.length := by
  obtain ⟨-, depth, htree, hmet, hshort⟩ := parentsTo_of_leads hg h
  have hd := htree.descent_trace hmet (htree.depth_le hmet)
  obtain ⟨hpath, hlength⟩ := htree.path_of_descent hd hmet
  refine ⟨_, hd, shortestPath?_eq_of_descent hg ha h hd, (path_step_iff hg).1 hpath, ?_⟩
  intro other hother
  rw [hlength]
  exact hshort other hother

end Graph

end WaitFor
