import Mathlib.Algebra.BigOperators.Group.Finset.Basic
import Mathlib.Algebra.Order.BigOperators.Group.Finset
import WaitFor.Proofs.Graph.Requests

/-! # The two searches of an insertion

A search is a loop over a worklist (`Window.turn`).  Its worklist may grow, and hold a node several
times, but a node is visited at most once, and each turn takes one entry off a worklist that only
visits add to.  So what is on the worklist, and what the nodes without a mark may still add to it,
bounds the number of turns (`Window.pending_turns`): in a graph, a search that starts from one node
ends within as many turns as there are edges, and two.

The search backwards from the source of a new edge runs with the marks of the search forwards from
its target.  If that one has not met the source, no node that it marked leads there, and the marks
make no difference (`ancestorsAbove_of_marked`).
-/

namespace WaitFor

namespace Window

/-- A search under way: the visited nodes with the last one first, all marked nodes, and the
worklist. -/
structure Loop where
  found : List NodeId
  marked : List NodeId
  stack : List NodeId
deriving DecidableEq

/-- The node that the next turn visits, if it visits one. -/
def Loop.visits? (size : Nat) (l : Loop) : Option NodeId :=
  l.stack.head?.filter fun n => n.index < size ∧ n ∉ l.marked

/-- One turn of a search: its result, or how it goes on. -/
def turn (w : Window) (size : Nat) (l : Loop) : Sweep ⊕ Loop :=
  match l.stack, l.visits? size with
  | [], _ => .inl ⟨true, l.found, l.marked⟩
  | _ :: stack, none => .inr { l with stack }
  | _ :: stack, some n =>
    if (w.next n).any w.target then .inl ⟨false, n :: l.found, n :: l.marked⟩
    else .inr ⟨n :: l.found, n :: l.marked, (w.entered l.marked n).reverse ++ stack⟩

/-- Some turns of a search. -/
def turns (w : Window) (size : Nat) (start : Loop) : Nat → Sweep ⊕ Loop
  | 0 => .inr start
  | k + 1 => (w.turns size start k).elim .inl (w.turn size)

/-- What visits of the nodes without a mark can still put on the worklist. -/
def awaiting (w : Window) (size : Nat) (marked : List NodeId) : Nat :=
  ∑ i ∈ (Finset.range size).filter fun i => ⟨i⟩ ∉ marked, (w.next ⟨i⟩).length

/-- How many nodes can still be taken off the worklist. -/
def Loop.pending (w : Window) (size : Nat) (l : Loop) : Nat :=
  l.stack.length + w.awaiting size l.marked

/-- The loop of a search from `start` ends with its result within the limit.  What it finds is what
it visits, and no two turns visit the same node. -/
structure Ends (w : Window) (size : Nat) (start : Loop) (limit : Nat) (s : Sweep) : Prop where
  within : ∃ k ≤ limit, w.turns size start k = .inl s
  visits : ∀ n, n ∈ s.found ↔ n ∈ start.found ∨
    ∃ k l, w.turns size start k = .inr l ∧ l.visits? size = some n
  once : ∀ i j l l' n, w.turns size start i = .inr l → w.turns size start j = .inr l' →
    l.visits? size = some n → l'.visits? size = some n → i = j

variable {w : Window} {size : Nat} {found marked stack : List NodeId} {n : NodeId} {s : Sweep}
  {l l' start : Loop}

/-! ## Turns -/

/-- A turn visits the first node of the worklist if that is there and not marked. -/
theorem Loop.visits?_eq_some : l.visits? size = some n ↔
    (∃ stack, l.stack = n :: stack) ∧ n.index < size ∧ n ∉ l.marked := by
  rw [visits?, Option.filter_eq_some_iff, List.head?_eq_some_iff, decide_eq_true_iff]

/-- All that a turn can do: end where the worklist is empty, pass over a node, end since a target
stands beside the visited node, or visit a node. -/
inductive Turned (w : Window) (size : Nat) (l : Loop) : Sweep ⊕ Loop → Prop
  | done (hstack : l.stack = []) (hvisits : l.visits? size = none) :
    Turned w size l (.inl ⟨true, l.found, l.marked⟩)
  | skip {n : NodeId} {stack : List NodeId} (hstack : l.stack = n :: stack)
      (hvisits : l.visits? size = none) (hskip : ¬ (n.index < size ∧ n ∉ l.marked)) :
    Turned w size l (.inr { l with stack })
  | target {n : NodeId} {stack : List NodeId} (hstack : l.stack = n :: stack)
      (hvisits : l.visits? size = some n) (hnew : n.index < size ∧ n ∉ l.marked)
      (htarget : (w.next n).any w.target = true) :
    Turned w size l (.inl ⟨false, n :: l.found, n :: l.marked⟩)
  | visit {n : NodeId} {stack : List NodeId} (hstack : l.stack = n :: stack)
      (hvisits : l.visits? size = some n) (hnew : n.index < size ∧ n ∉ l.marked)
      (htarget : (w.next n).any w.target = false) :
    Turned w size l
      (.inr ⟨n :: l.found, n :: l.marked, (w.entered l.marked n).reverse ++ stack⟩)

/-- A turn does one of the things that turns can do. -/
theorem turned (w : Window) (size : Nat) (l : Loop) : Turned w size l (w.turn size l) := by
  obtain ⟨found, marked, stack⟩ := l
  cases stack with
  | nil => exact .done rfl rfl
  | cons n stack =>
    by_cases hnew : n.index < size ∧ n ∉ marked
    · have hvisits : Loop.visits? size ⟨found, marked, n :: stack⟩ = some n :=
        Loop.visits?_eq_some.2 ⟨⟨stack, rfl⟩, hnew⟩
      rw [turn, hvisits]
      dsimp only
      split
      · next htarget => exact .target rfl hvisits hnew htarget
      · next htarget => exact .visit rfl hvisits hnew (by simpa using htarget)
    · have hvisits : Loop.visits? size ⟨found, marked, n :: stack⟩ = none := by
        simpa [Loop.visits?, Option.filter] using hnew
      rw [turn, hvisits]
      exact .skip rfl hvisits hnew

/-- A turn does not change what the search will find. -/
theorem Turned.sweep_eq {r : Sweep ⊕ Loop} (h : Turned w size l r) :
    w.sweep size l.found l.marked l.stack =
      r.elim id fun l' => w.sweep size l'.found l'.marked l'.stack := by
  cases h with
  | done hstack _ =>
    rw [hstack, sweep]
    rfl
  | skip hstack _ hskip =>
    rw [hstack, sweep, dif_neg hskip]
    rfl
  | target hstack _ hnew htarget =>
    rw [hstack, sweep, dif_pos hnew, if_pos htarget]
    rfl
  | visit hstack _ hnew htarget =>
    rw [hstack, sweep, dif_pos hnew, if_neg (by simpa using htarget)]
    rfl

/-- A visited node is found and marked, and nothing else is. -/
theorem Turned.found_eq (h : Turned w size l (.inr l')) :
    l'.found = (l.visits? size).toList ++ l.found ∧
      l'.marked = (l.visits? size).toList ++ l.marked := by
  cases h with
  | skip _ hvisits _ => rw [hvisits]; exact ⟨rfl, rfl⟩
  | visit _ hvisits _ _ => rw [hvisits]; exact ⟨rfl, rfl⟩

/-- A search that ends has found what it had found before, and what its last turn visits. -/
theorem Turned.found_eq_of_ended (h : Turned w size l (.inl s)) :
    s.found = (l.visits? size).toList ++ l.found := by
  cases h with
  | done _ hvisits => rw [hvisits]; rfl
  | target _ hvisits _ _ => rw [hvisits]; rfl

/-- A visit puts on the worklist no more than the visited node could add. -/
theorem awaiting_cons (hn : n.index < size) (hnew : n ∉ marked) :
    w.awaiting size (n :: marked) + (w.next n).length = w.awaiting size marked := by
  have hvisited : (Finset.range size).filter (fun i => ⟨i⟩ ∉ n :: marked) =
      ((Finset.range size).filter fun i => ⟨i⟩ ∉ marked).erase n.index := by
    ext i
    have hi : (⟨i⟩ : NodeId) = n ↔ i = n.index :=
      ⟨fun h => congrArg NodeId.index h, fun h => congrArg NodeId.mk h⟩
    simp only [Finset.mem_filter, Finset.mem_erase, List.mem_cons, hi]
    tauto
  rw [awaiting, awaiting, hvisited]
  refine Finset.sum_erase_add _ _ ?_
  simpa using ⟨hn, hnew⟩

/-- No more nodes are entered than there are beside the node. -/
theorem length_entered_le (w : Window) (marked : List NodeId) (n : NodeId) :
    (w.entered marked n).length ≤ (w.next n).length :=
  List.length_filter_le _ _

/-- Every turn that goes on leaves less to be taken off the worklist. -/
theorem Turned.pending_lt (h : Turned w size l (.inr l')) :
    l'.pending w size < l.pending w size := by
  cases h with
  | skip hstack _ _ =>
    dsimp only [Loop.pending]
    rw [hstack, List.length_cons]
    omega
  -- The worklist may grow, by less than what the visited node was counted for.
  | @visit n stack hstack _ hnew _ =>
    have hawaiting := awaiting_cons (w := w) hnew.1 hnew.2
    have hentered := w.length_entered_le l.marked n
    dsimp only [Loop.pending]
    rw [hstack, List.length_cons, List.length_append, List.length_reverse]
    omega

/-! ## Runs -/

/-- A search that has ended stays ended. -/
theorem turns_succ_of_ended {k : Nat} (h : w.turns size start k = .inl s) :
    w.turns size start (k + 1) = .inl s := by
  rw [turns, h]
  rfl

/-- A search that goes on takes one turn more. -/
theorem turns_succ_of_going {k : Nat} (h : w.turns size start k = .inr l) :
    w.turns size start (k + 1) = w.turn size l := by
  rw [turns, h]
  rfl

/-- A search under way came from one under way. -/
theorem turns_succ_eq_inr {k : Nat} (h : w.turns size start (k + 1) = .inr l') :
    ∃ l, w.turns size start k = .inr l ∧ Turned w size l (.inr l') := by
  cases hk : w.turns size start k with
  | inl s => cases (turns_succ_of_ended hk).symm.trans h
  | inr l => exact ⟨l, rfl, (turns_succ_of_going hk).symm.trans h ▸ w.turned size l⟩

/-- The result of a search is that of all later times. -/
theorem turns_of_ended {k j : Nat} (h : w.turns size start k = .inl s) (hle : k ≤ j) :
    w.turns size start j = .inl s := by
  induction j, hle using Nat.le_induction with
  | base => exact h
  | succ j _ ih => exact turns_succ_of_ended ih

/-- After any number of turns the search will still come to its result. -/
theorem sweep_eq_of_turns (w : Window) (size : Nat) (start : Loop) (k : Nat) :
    w.sweep size start.found start.marked start.stack =
      (w.turns size start k).elim id fun l => w.sweep size l.found l.marked l.stack := by
  induction k with
  | zero => rfl
  | succ k ih =>
    cases hk : w.turns size start k with
    | inl s => rw [turns_succ_of_ended hk, ih, hk]
    | inr l => rw [turns_succ_of_going hk, ← (w.turned size l).sweep_eq, ih, hk, Sum.elim_inr]

/-- Each turn is paid for by what was there to be taken off the worklist. -/
theorem pending_turns {k : Nat} (h : w.turns size start k = .inr l) :
    l.pending w size + k ≤ start.pending w size := by
  induction k generalizing l with
  | zero =>
    cases h
    exact Nat.le_refl _
  | succ k ih =>
    obtain ⟨l', hk, hturn⟩ := turns_succ_eq_inr h
    have := ih hk
    have := hturn.pending_lt
    omega

/-- Marks stay while a search is under way. -/
theorem marked_subset_turns {i j : Nat} (hi : w.turns size start i = .inr l) (hle : i ≤ j)
    (hj : w.turns size start j = .inr l') : l.marked ⊆ l'.marked := by
  induction j, hle using Nat.le_induction generalizing l' with
  | base =>
    cases hi.symm.trans hj
    exact List.Subset.refl _
  | succ j _ ih =>
    obtain ⟨l₁, hl₁, hturn⟩ := turns_succ_eq_inr hj
    rw [hturn.found_eq.2]
    exact List.Subset.trans (ih hl₁) (List.subset_append_right _ _)

/-- A visited node is marked, and so is not visited again. -/
theorem not_visited_later {i j : Nat} (hi : w.turns size start i = .inr l) (hlt : i < j)
    (hj : w.turns size start j = .inr l') (hvisit : l.visits? size = some n) :
    l'.visits? size ≠ some n := by
  intro hvisit'
  -- Turn `i` is not the last, since turn `j` comes later.
  obtain ⟨l₁, hl₁⟩ : ∃ l₁, w.turns size start (i + 1) = .inr l₁ := by
    cases h : w.turns size start (i + 1) with
    | inl s => cases (turns_of_ended h hlt).symm.trans hj
    | inr l₁ => exact ⟨l₁, rfl⟩
  obtain ⟨l₀, hl₀, hturn⟩ := turns_succ_eq_inr hl₁
  cases hi.symm.trans hl₀
  have hmarked : n ∈ l₁.marked := by
    rw [hturn.found_eq.2, hvisit]
    exact List.mem_cons_self
  exact (Loop.visits?_eq_some.1 hvisit').2.2 (marked_subset_turns hl₁ hlt hj hmarked)

/-- What is found after some turns was visited in one of them, or found before. -/
theorem mem_found_turns (w : Window) (size : Nat) (start : Loop) (k : Nat) (n : NodeId) :
    n ∈ (w.turns size start k).elim Sweep.found Loop.found ↔ n ∈ start.found ∨
      ∃ j < k, ∃ l, w.turns size start j = .inr l ∧ l.visits? size = some n := by
  induction k with
  | zero => simp [turns]
  | succ k ih =>
    have hlast : (∃ j < k + 1, ∃ l, w.turns size start j = .inr l ∧ l.visits? size = some n) ↔
        (∃ j < k, ∃ l, w.turns size start j = .inr l ∧ l.visits? size = some n) ∨
          ∃ l, w.turns size start k = .inr l ∧ l.visits? size = some n := by
      simp only [Nat.lt_succ_iff_lt_or_eq, or_and_right, exists_or, exists_eq_left]
    rw [hlast, ← or_assoc, ← ih]
    cases hk : w.turns size start k with
    | inl s => simp [turns_succ_of_ended hk]
    | inr l =>
      have hfound : (w.turn size l).elim Sweep.found Loop.found =
          (l.visits? size).toList ++ l.found := by
        have hturn := w.turned size l
        cases hr : w.turn size l with
        | inl s => exact (hr ▸ hturn).found_eq_of_ended
        | inr l' => exact (hr ▸ hturn).found_eq.1
      rw [turns_succ_of_going hk, hfound, List.mem_append, Option.mem_toList]
      simp [or_comm]

/-- Every search ends, within one turn more than there is to be taken off the worklist. -/
theorem ends (w : Window) (size : Nat) (start : Loop) {limit : Nat}
    (hlimit : start.pending w size + 1 ≤ limit) :
    w.Ends size start limit (w.sweep size start.found start.marked start.stack) := by
  -- After so many turns there is nothing left to pay for another one.
  obtain ⟨s, hs⟩ : ∃ s, w.turns size start (start.pending w size + 1) = .inl s := by
    cases h : w.turns size start (start.pending w size + 1) with
    | inl s => exact ⟨s, rfl⟩
    | inr l =>
      have := pending_turns h
      omega
  have hsweep := w.sweep_eq_of_turns size start (start.pending w size + 1)
  rw [hs] at hsweep
  rw [hsweep]
  refine ⟨⟨_, hlimit, hs⟩, fun n => ?_, fun i j l l' n hi hj hvisit hvisit' => ?_⟩
  · have hfound := w.mem_found_turns size start (start.pending w size + 1) n
    rw [hs] at hfound
    refine hfound.trans (or_congr_right ⟨?_, ?_⟩)
    · rintro ⟨j, -, l, hl, hvisit⟩
      exact ⟨j, l, hl, hvisit⟩
    · rintro ⟨j, l, hl, hvisit⟩
      -- No turn is left to visit anything once the search has ended.
      refine ⟨j, Nat.lt_of_not_le fun hle => ?_, l, hl, hvisit⟩
      cases (turns_of_ended hs hle).symm.trans hl
  · rcases Nat.lt_trichotomy i j with hlt | heq | hlt
    · exact absurd hvisit' (not_visited_later hi hlt hj hvisit)
    · exact heq
    · exact absurd hvisit (not_visited_later hj hlt hi hvisit')

/-! ## Other marks -/

/-- A search has these turns only. -/
theorem Run.eq_sweep (h : Run w size found marked stack s) :
    s = w.sweep size found marked stack := by
  induction h with
  | done => rw [sweep]
  | target hsize hnew htarget =>
    rw [sweep, dif_pos ⟨hsize, hnew⟩, if_pos (List.any_eq_true.2 htarget)]
  | visit hsize hnew htarget _ ih =>
    rw [sweep, dif_pos ⟨hsize, hnew⟩, if_neg (by simpa using htarget)]
    exact ih
  | skip hskip _ ih =>
    rw [sweep, dif_neg fun h => h.2 (hskip h.1)]
    exact ih

/-- Marks on nodes that a search never meets make no difference to it. -/
theorem Run.add_marks {P : NodeId → Prop} (h : Run w size found marked stack s)
    (hstep : ∀ x y, P x → y ∈ w.next x → w.inside y = true → P y) (hstack : ∀ x ∈ stack, P x)
    {marks : List NodeId} (hmarks : ∀ x ∈ marks, ¬ P x) :
    Run w size found (marked ++ marks) stack { s with marked := s.marked ++ marks } := by
  have hnot : ∀ {marked : List NodeId} {x : NodeId}, P x → x ∉ marked → x ∉ marked ++ marks :=
    fun hx hnew hmem => (List.mem_append.1 hmem).elim hnew fun hmem => hmarks _ hmem hx
  induction h with
  | done => exact .done
  | target hsize hnew htarget =>
    exact .target hsize (hnot (hstack _ List.mem_cons_self) hnew) htarget
  | @visit found marked stack n s hsize hnew htarget _ ih =>
    obtain ⟨hn, hstack⟩ := List.forall_mem_cons.1 hstack
    have hentered : w.entered (marked ++ marks) n = w.entered marked n := by
      refine List.filter_congr fun y hy => decide_eq_decide.2 (and_congr_left fun hin => ?_)
      have hnever : y ∉ marks := fun hmem => hmarks y hmem (hstep n y hn hy hin)
      simp [hnever]
    refine .visit hsize (hnot hn hnew) htarget ?_
    rw [hentered]
    refine ih (List.forall_mem_append.2 ⟨fun y hy => ?_, hstack⟩)
    obtain ⟨hnext, -, hin⟩ := mem_entered.1 (List.mem_reverse.1 hy)
    exact hstep n y hn hnext hin
  | skip hskip _ ih =>
    exact .skip (fun hsize => List.mem_append_left _ (hskip hsize))
      (ih (List.forall_mem_cons.1 hstack).2)

end Window

namespace Graph

open Relation

variable {g : Graph} {a b x : NodeId}

/-! ## Searches in a graph -/

/-- The nodes beside each node are as many as the pairs that they make. -/
theorem sum_length (g : Graph) (beside : NodeId → List NodeId) :
    ∑ i ∈ Finset.range g.nodeCount, (beside ⟨i⟩).length =
      (g.ids.flatMap fun a => (beside a).map (Prod.mk a)).length := by
  rw [List.length_flatMap, ids, List.map_map]
  simp only [List.length_map, Function.comp_def]
  rfl

/-- No search can put more on its worklist than there are edges. -/
theorem Sound.sum_successors (hg : g.Sound) :
    ∑ i ∈ Finset.range g.nodeCount, (g.successors ⟨i⟩).length = g.edgeCount :=
  (g.sum_length g.successors).trans hg.edgeCount

/-- There are no more predecessors than edges. -/
theorem Sound.sum_predecessors (hg : g.Sound) :
    ∑ i ∈ Finset.range g.nodeCount, (g.predecessors ⟨i⟩).length ≤ g.edgeCount := by
  -- Read backwards, the pairs are edges, each once.
  have hnodup := (nodup_pairs (g := g) hg.nodup_predecessors).map Prod.swap_injective
  have hedges : (g.ids.flatMap fun b => (g.predecessors b).map (Prod.mk b)).map Prod.swap ⊆
      g.edges := by
    rintro ⟨x, y⟩ hxy
    simp only [List.mem_map, List.mem_flatMap] at hxy
    obtain ⟨_, ⟨b, -, a, hab, rfl⟩, heq⟩ := hxy
    cases heq
    exact mem_edges.2 (hg.mem_predecessors.1 hab)
  rw [sum_length, ← List.length_map (f := Prod.swap), ← hg.edgeCount]
  exact (List.subperm_of_subset hnodup hedges).length_le

/-- The marks of the search forwards are where the search backwards does not go. -/
theorem ancestorsAbove_of_marked (hg : g.Sound) {marked : List NodeId} (bound : Nat)
    (hmarked : ∀ x ∈ marked, ¬ g.Leads x a) :
    ({ g with marked } : Graph).ancestorsAbove a bound =
      { g.ancestorsAbove a bound with
        marked := (g.ancestorsAbove a bound).marked ++ marked } := by
  have hrun : (g.above bound).Run g.nodeCount [] [] [a] (g.ancestorsAbove a bound) := by
    rw [ancestorsAbove, hg.marked]
    exact Window.run_sweep _ _ _ _ _
  -- The search stays among the nodes that lead to `a`, of which none has such a mark.
  have hmore := hrun.add_marks (P := fun x => g.Leads x a)
    (fun x y hx hy _ => hx.head (hg.mem_predecessors.1 hy)) (by simpa using Leads.refl g a) hmarked
  exact hmore.eq_sweep.symm

/-- A search from one node, with any marks, ends within as many turns as there are edges, and
two. -/
theorem ends_of_sum_le {w : Window} (g : Graph) (marked : List NodeId) (start : NodeId)
    (hsum : ∑ i ∈ Finset.range g.nodeCount, (w.next ⟨i⟩).length ≤ g.edgeCount) :
    w.Ends g.nodeCount ⟨[], marked, [start]⟩ (g.edgeCount + 2)
      (w.sweep g.nodeCount [] marked [start]) := by
  refine w.ends g.nodeCount ⟨[], marked, [start]⟩ ?_
  have hawaiting : w.awaiting g.nodeCount marked ≤ g.edgeCount :=
    (Finset.sum_le_sum_of_subset (Finset.filter_subset _ _)).trans hsum
  show [start].length + w.awaiting g.nodeCount marked + 1 ≤ g.edgeCount + 2
  rw [List.length_singleton]
  omega

/-- After any requests, let `b` be ranked before `a`.  The search forwards from `b` is cut off
exactly if edges lead from `b` to `a`.  It marks what it finds, and if it is not cut off that is
all that `b` leads to below the rank of `a`.  Then the search backwards from `a`, with these marks,
finds all that leads to `a` above the rank of `b`, which is none of the former; without the marks it
finds the same.  Both loops end, and visit each node that they find in one turn. -/
theorem insertion_searches_exact {requests : List Request} {answers : List Answer}
    (h : Graph.empty.serveAll requests = some (answers, g)) (ha : g.contains a = true)
    (hb : g.contains b = true) (hlt : g.rank b < g.rank a) :
    let leads := ReflTransGen fun x y => g.hasEdge x y = true
    let forward := g.descendantsBelow b (g.rank a)
    let backward := ({ g with marked := forward.marked } : Graph).ancestorsAbove a (g.rank b)
    (forward.complete = false ↔ leads b a) ∧
    (forward.marked = forward.found ∧ forward.found.Nodup) ∧
    (forward.complete = true →
      (∀ x, x ∈ forward.found ↔ leads b x ∧ g.rank x < g.rank a) ∧
      (backward.found.Nodup ∧ ∀ x, x ∈ backward.found ↔ leads x a ∧ g.rank b < g.rank x) ∧
      (∀ x ∈ backward.found, x ∉ forward.found) ∧
      backward.found = (g.ancestorsAbove a (g.rank b)).found) ∧
    (g.below (g.rank a)).Ends g.nodeCount ⟨[], g.marked, [b]⟩ (g.edgeCount + 2) forward ∧
    (g.above (g.rank b)).Ends g.nodeCount ⟨[], forward.marked, [a]⟩ (g.edgeCount + 2) backward := by
  intro leads forward backward
  have hg : g.Sound := Sound.empty.serveAll h
  have hleads : leads = g.Leads := by
    have hedge : (fun x y => g.hasEdge x y = true) = g.Edge := by
      funext x y
      exact propext hg.hasEdge_iff
    exact congrArg ReflTransGen hedge
  rw [hleads]
  obtain ⟨hmarked, hnodup, hcycle, hforward⟩ := descendantsBelow_spec hg ha hb hlt
  refine ⟨hcycle, ⟨hmarked, hnodup⟩, fun hcomplete => ?_, ?_, ?_⟩
  · have hforward := hforward hcomplete
    have hnot : ∀ x ∈ forward.marked, ¬ g.Leads x a := by
      intro x hx hxa
      have hcut := hcycle.2 (((hforward x).1 (hmarked ▸ hx)).1.trans hxa)
      exact Bool.false_ne_true (hcut.symm.trans hcomplete)
    obtain ⟨-, hbnodup, hfresh, hbackward⟩ := ancestorsAbove_spec hg ha hlt hnot
    have hsame := congrArg Sweep.found (ancestorsAbove_of_marked hg (g.rank b) hnot)
    exact ⟨hforward, ⟨hbnodup, hbackward⟩, fun x hx => hmarked ▸ hfresh x hx, hsame⟩
  · exact g.ends_of_sum_le g.marked b hg.sum_successors.le
  · exact ends_of_sum_le (w := g.above (g.rank b)) g forward.marked a hg.sum_predecessors

/-- Edges `0 → 2`, `0 → 1` and `1 → 2`: the search from node 0 for node 3 holds node 2 twice, finds
all three and ends; the search from node 0 for node 2 is cut off. -/
theorem insertion_searches_exact_of_triangle :
    ∃ answers g,
      Graph.empty.serveAll [.addNode, .addNode, .addNode, .addNode, .insertEdge ⟨0⟩ ⟨2⟩,
        .insertEdge ⟨0⟩ ⟨1⟩, .insertEdge ⟨1⟩ ⟨2⟩] = some (answers, g) ∧
      (g.below (g.rank ⟨3⟩)).turns g.nodeCount ⟨[], g.marked, [⟨0⟩]⟩ 2 =
        .inr ⟨[⟨1⟩, ⟨0⟩], [⟨1⟩, ⟨0⟩], [⟨2⟩, ⟨2⟩]⟩ ∧
      ⟨2⟩ ∈ (g.descendantsBelow ⟨0⟩ (g.rank ⟨3⟩)).found ∧
      (g.descendantsBelow ⟨0⟩ (g.rank ⟨3⟩)).found.Nodup ∧
      (g.descendantsBelow ⟨0⟩ (g.rank ⟨2⟩)).complete = false := by
  have h : Graph.empty.serveAll [.addNode, .addNode, .addNode, .addNode, .insertEdge ⟨0⟩ ⟨2⟩,
      .insertEdge ⟨0⟩ ⟨1⟩, .insertEdge ⟨1⟩ ⟨2⟩] =
      some ([.node ⟨0⟩, .node ⟨1⟩, .node ⟨2⟩, .node ⟨3⟩, .present true, .present true,
          .present true],
        ⟨#[⟨0, [], [⟨2⟩, ⟨1⟩]⟩, ⟨1, [⟨0⟩], [⟨2⟩]⟩, ⟨2, [⟨0⟩, ⟨1⟩], []⟩, ⟨3, [], []⟩], 3, []⟩) := by
    cbv
  obtain ⟨-, ⟨-, hnodup⟩, hforward, -, -⟩ :=
    insertion_searches_exact h (a := ⟨3⟩) (b := ⟨0⟩) (by decide) (by decide) (by decide)
  obtain ⟨hcut, -, -, -, -⟩ :=
    insertion_searches_exact h (a := ⟨2⟩) (b := ⟨0⟩) (by decide) (by decide) (by decide)
  obtain ⟨hfound, -⟩ := hforward (by cbv)
  exact ⟨_, _, h, by decide, (hfound ⟨2⟩).2 ⟨.single (by decide), by decide⟩, hnodup,
    hcut.2 (.single (by decide))⟩

end Graph

end WaitFor
