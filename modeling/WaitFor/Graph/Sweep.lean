import WaitFor.Graph.Basic

/-!
# Bounded searches

A `Window` is the part of a graph that a search may enter: where it can go from a node, which
nodes it may enter, and which node it looks for.  `Window.sweep` visits the nodes of a window from
a worklist.  It stops as soon as a node that it looks for is seen beside a visited one; otherwise
it ends with everything that can be reached through the window.

A node is marked when it is taken from the worklist, not when it is put there, so the worklist may
hold a node more than once; the second time it is passed over.
-/

namespace WaitFor

/-- The part of a graph that a search may enter: the nodes beside a node, the nodes that may be
entered, and those that end the search. -/
structure Window where
  next : NodeId → List NodeId
  inside : NodeId → Bool
  target : NodeId → Bool

/-- What a search found: whether it ended without seeing a target, the visited nodes with the last
one first, and all marked nodes, these and those marked before. -/
structure Sweep where
  complete : Bool
  found : List NodeId
  marked : List NodeId
deriving DecidableEq, Repr

/-- How many of the first `size` nodes are not in `seen`. -/
def unseen (size : Nat) (seen : NodeId → Bool) : Nat :=
  (List.range size).countP fun i => !seen ⟨i⟩

/-- More seen nodes leave fewer unseen ones. -/
theorem unseen_lt {size : Nat} {p q : NodeId → Bool} {id : NodeId} (hpq : ∀ x, p x → q x)
    (hid : id.index < size) (hp : p id = false) (hq : q id = true) :
    unseen size q < unseen size p := by
  unfold unseen
  have hmem : id.index ∈ List.range size := List.mem_range.2 hid
  obtain ⟨as, bs, hs⟩ := List.append_of_mem hmem
  have hmono : ∀ l : List Nat, l.countP (fun i => !q ⟨i⟩) ≤ l.countP (fun i => !p ⟨i⟩) := by
    intro l
    refine List.countP_mono_left fun i _ hi => ?_
    have := hpq ⟨i⟩
    cases hpi : p ⟨i⟩ <;> simp_all
  -- `id` counts on the right alone, and nothing else counts on the left alone.
  rw [hs, List.countP_append, List.countP_append, List.countP_cons_of_neg (by simp [hq]),
    List.countP_cons_of_pos (by simp [hp])]
  have := hmono as
  have := hmono bs
  omega

namespace Window

/-- Visits the window from the nodes on `stack`, in a graph of `size` nodes. -/
def sweep (w : Window) (size : Nat) (found marked : List NodeId) :
    (stack : List NodeId) → Sweep
  | [] => ⟨true, found, marked⟩
  | n :: stack =>
    if h : n.index < size ∧ n ∉ marked then
      have : unseen size (fun v => v ∈ n :: marked) < unseen size (fun v => v ∈ marked) :=
        unseen_lt (by simp_all) h.1 (by simp [h.2]) (by simp)
      if (w.next n).any w.target then ⟨false, n :: found, n :: marked⟩
      else
        let entered := (w.next n).filter fun v => v ∉ n :: marked ∧ w.inside v
        w.sweep size (n :: found) (n :: marked) (entered.reverse ++ stack)
    else w.sweep size found marked stack
termination_by stack => (unseen size fun v => v ∈ marked, stack.length)
decreasing_by
  · exact Prod.Lex.left _ _ this
  · exact Prod.Lex.right _ (by simp)

end Window

namespace Graph

/-- The nodes below rank `bound`, entered along the edges, in search of rank `bound` itself. -/
def below (g : Graph) (bound : Nat) : Window where
  next := g.successors
  inside v := g.rank v < bound
  target v := g.rank v = bound

/-- The nodes above rank `bound`, entered against the edges; no node ends the search. -/
def above (g : Graph) (bound : Nat) : Window where
  next := g.predecessors
  inside v := bound < g.rank v
  target _ := false

/-- The nodes ranked before `goal`, entered along the edges, in search of `goal`. -/
def toward (g : Graph) (goal : NodeId) : Window where
  next := g.successors
  inside v := g.rank v < g.rank goal
  target v := v = goal

/-- Marks and collects what can be reached from `start` below rank `bound`; incomplete if the node
of rank `bound` can be reached. -/
def descendantsBelow (g : Graph) (start : NodeId) (bound : Nat) : Sweep :=
  (g.below bound).sweep g.nodeCount [] g.marked [start]

/-- Marks and collects what reaches `start` from above rank `bound`. -/
def ancestorsAbove (g : Graph) (start : NodeId) (bound : Nat) : Sweep :=
  (g.above bound).sweep g.nodeCount [] g.marked [start]

/-- Whether edges lead from `a` to `b`.  Every node on the way is ranked between the two, so the
search stays there. -/
def reaches (g : Graph) (a b : NodeId) : Bool :=
  if !g.contains a || !g.contains b then false
  else if a = b then true
  else if g.rank b < g.rank a then false
  else !((g.toward b).sweep g.nodeCount [] [] [a]).complete

end Graph

end WaitFor
