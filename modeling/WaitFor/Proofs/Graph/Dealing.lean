import WaitFor.Proofs.Graph.Edges

/-! # Dealing ranks out again

`Graph.redeal` pools the ranks of two lists of nodes and hands them back in ascending order, to the
first list first.  `Graph.Redealt` states what that does to the ranks; that nodes move in one
direction only (`Redealt.before_le`, `Redealt.le_after`) comes from counting, in the pool, the
ranks on either side of a given one.
-/

namespace WaitFor

/-! ## Sorted lists and their parts -/

section counting

variable {α : Type} {l : List α} {p : α → Bool} {i : Nat}

/-- Elements that all stand before place `i` are at most `i` many. -/
theorem countP_le_of_drop (h : ∀ x ∈ l.drop i, p x = false) : l.countP p ≤ i := by
  have hdrop : (l.drop i).countP p = 0 := List.countP_eq_zero.2 fun x hx => by simp [h x hx]
  rw [← List.take_append_drop i l, List.countP_append, hdrop, Nat.add_zero]
  exact Nat.le_trans List.countP_le_length (List.length_take_le i l)

/-- Elements that all stand from place `i` on are at most as many as there are places. -/
theorem countP_le_of_take (h : ∀ x ∈ l.take i, p x = false) : l.countP p ≤ l.length - i := by
  have htake : (l.take i).countP p = 0 := List.countP_eq_zero.2 fun x hx => by simp [h x hx]
  rw [← List.take_append_drop i l, List.countP_append, htake, Nat.zero_add]
  refine Nat.le_trans List.countP_le_length (Nat.le_of_eq ?_)
  rw [List.length_drop, List.take_append_drop]

end counting

variable {pool l₁ l₂ : List Nat} {i : Nat}

/-- Later entries of a sorted list are not smaller. -/
theorem getElem_le_getElem_of_pairwise {l : List Nat} (h : l.Pairwise (· ≤ ·)) {i j : Nat}
    (hij : i ≤ j) (hj : j < l.length) : l[i] ≤ l[j] := by
  rcases Nat.eq_or_lt_of_le hij with rfl | hij
  · exact Nat.le_refl _
  · exact List.pairwise_iff_getElem.1 h i j (by omega) hj hij

/-- In a sorted list, place `i` holds no more than place `i` of a sorted part. -/
theorem getElem_le_left_of_perm (hp : pool.Pairwise (· ≤ ·)) (h : pool.Perm (l₁ ++ l₂))
    (h₁ : l₁.Pairwise (· ≤ ·)) (hi : i < l₁.length) (hi' : i < pool.length) :
    pool[i] ≤ l₁[i] := by
  by_contra hlt
  -- At most `i` elements of the pool are as small as `l₁[i]`, but `l₁` alone has `i + 1`.
  have hpool : pool.countP (· ≤ l₁[i]) ≤ i := by
    refine countP_le_of_drop fun x hx => ?_
    obtain ⟨k, hk, rfl⟩ := List.mem_iff_getElem.1 hx
    rw [List.length_drop] at hk
    rw [List.getElem_drop]
    have := getElem_le_getElem_of_pairwise hp (i := i) (j := i + k) (by omega) (by omega)
    simp only [decide_eq_false_iff_not]
    omega
  have hpart : i + 1 ≤ l₁.countP (· ≤ l₁[i]) := by
    have hall : (l₁.take (i + 1)).countP (· ≤ l₁[i]) = i + 1 := by
      rw [List.countP_eq_length.2, List.length_take, Nat.min_eq_left hi]
      intro x hx
      obtain ⟨k, hk, rfl⟩ := List.mem_iff_getElem.1 hx
      rw [List.length_take] at hk
      rw [List.getElem_take, decide_eq_true_iff]
      exact getElem_le_getElem_of_pairwise h₁ (by omega) hi
    rw [← hall]
    exact (List.take_sublist _ _).countP_le
  rw [h.countP_eq, List.countP_append] at hpool
  omega

/-- In a sorted list, the last places hold no less than those of a sorted part. -/
theorem right_le_getElem_of_perm (hp : pool.Pairwise (· ≤ ·)) (h : pool.Perm (l₁ ++ l₂))
    (h₂ : l₂.Pairwise (· ≤ ·)) (hi : i < l₂.length) (hi' : l₁.length + i < pool.length) :
    l₂[i] ≤ pool[l₁.length + i] := by
  by_contra hlt
  have hlen := h.length_eq
  rw [List.length_append] at hlen
  -- From place `i` on `l₂` has elements as large as `l₂[i]`, too many for what the pool has left.
  have hpool : pool.countP (l₂[i] ≤ ·) ≤ pool.length - (l₁.length + i + 1) := by
    refine countP_le_of_take fun x hx => ?_
    obtain ⟨k, hk, rfl⟩ := List.mem_iff_getElem.1 hx
    rw [List.length_take] at hk
    rw [List.getElem_take]
    have := getElem_le_getElem_of_pairwise hp (i := k) (j := l₁.length + i) (by omega) (by omega)
    simp only [decide_eq_false_iff_not]
    omega
  have hpart : l₂.length - i ≤ l₂.countP (l₂[i] ≤ ·) := by
    have hall : (l₂.drop i).countP (l₂[i] ≤ ·) = l₂.length - i := by
      rw [List.countP_eq_length.2, List.length_drop]
      intro x hx
      obtain ⟨k, hk, rfl⟩ := List.mem_iff_getElem.1 hx
      rw [List.length_drop] at hk
      rw [List.getElem_drop, decide_eq_true_iff]
      exact getElem_le_getElem_of_pairwise h₂ (by omega) (by omega)
    rw [← hall]
    exact (List.drop_sublist _ _).countP_le
  rw [h.countP_eq, List.countP_append] at hpool
  omega

namespace Graph

variable {g : Graph} {ids before after : List NodeId} {ranks : List Nat}
  {x y : NodeId}

/-! ## Ranks handed out one by one -/

@[simp]
theorem assignRanks_cons {r : Nat} :
    g.assignRanks (x :: ids) (r :: ranks) = (g.setRank x r).assignRanks ids ranks := rfl

/-- Nothing but ranks is assigned. -/
theorem assignRanks_fields (g : Graph) (ids : List NodeId) (ranks : List Nat) :
    (g.assignRanks ids ranks).nodeCount = g.nodeCount ∧
      (g.assignRanks ids ranks).successors = g.successors ∧
      (g.assignRanks ids ranks).predecessors = g.predecessors ∧
      (g.assignRanks ids ranks).marked = g.marked ∧
      (g.assignRanks ids ranks).edgeCount = g.edgeCount := by
  induction ids generalizing g ranks with
  | nil => exact ⟨rfl, rfl, rfl, rfl, rfl⟩
  | cons x ids ih =>
    cases ranks with
    | nil => exact ⟨rfl, rfl, rfl, rfl, rfl⟩
    | cons r ranks =>
      obtain ⟨h₁, h₂, h₃, h₄, h₅⟩ := ih (g.setRank x r) ranks
      rw [assignRanks_cons, h₁, h₂, h₃, h₄, h₅]
      exact ⟨nodeCount_setRank, funext fun _ => successors_setRank,
        funext fun _ => predecessors_setRank, rfl, rfl⟩

/-- Nodes that are dealt no rank keep theirs. -/
theorem rank_assignRanks_of_not_mem (h : x ∉ ids) :
    (g.assignRanks ids ranks).rank x = g.rank x := by
  induction ids generalizing g ranks with
  | nil => rfl
  | cons y ids ih =>
    cases ranks with
    | nil => rfl
    | cons r ranks =>
      rw [assignRanks_cons, ih fun hx => h (List.mem_cons_of_mem _ hx)]
      exact rank_setRank_of_ne fun e => h (e ▸ List.mem_cons_self)

/-- Distinct nodes have the ranks that were handed to them. -/
theorem map_rank_assignRanks (hnodup : ids.Nodup) (hc : ∀ x ∈ ids, g.contains x = true)
    (hlen : ids.length = ranks.length) : ids.map (g.assignRanks ids ranks).rank = ranks := by
  induction ids generalizing g ranks with
  | nil => exact (List.length_eq_zero_iff.1 hlen.symm).symm
  | cons y ids ih =>
    cases ranks with
    | nil => simp at hlen
    | cons r ranks =>
      obtain ⟨hy, hnodup⟩ := List.nodup_cons.1 hnodup
      obtain ⟨hcy, hc⟩ := List.forall_mem_cons.1 hc
      rw [assignRanks_cons, List.map_cons, rank_assignRanks_of_not_mem hy, rank_setRank_self hcy,
        ih hnodup (by simpa using hc) (by simpa using hlen)]

/-! ## The pool -/

/-- The ranks `old` of two lists of nodes are handed out again as `new`, to `before` first.  Each
list keeps its order; the ranks of the first do not grow, and those of the second do not shrink. -/
structure Redealt (before after : List NodeId) (old new : NodeId → Nat) : Prop where
  outside : ∀ x, x ∉ before → x ∉ after → new x = old x
  pool : ((before ++ after).map new).Perm ((before ++ after).map old)
  before_lt : ∀ x ∈ before, ∀ y ∈ before, old x < old y → new x < new y
  after_lt : ∀ x ∈ after, ∀ y ∈ after, old x < old y → new x < new y
  across : ∀ x ∈ before, ∀ y ∈ after, new x < new y
  before_le : ∀ x ∈ before, new x ≤ old x
  le_after : ∀ x ∈ after, old x ≤ new x

/-- Two orders of a list in which its elements stand by ascending keys agree. -/
theorem lt_of_pairwise {old new : NodeId → Nat}
    (hold : ids.Pairwise fun x y => old x ≤ old y) (hnew : ids.Pairwise fun x y => new x < new y) :
    ∀ x ∈ ids, ∀ y ∈ ids, old x < old y → new x < new y := by
  refine List.Pairwise.forall_of_forall_of_flip (fun x _ h => absurd h (Nat.lt_irrefl _)) ?_ ?_
  · refine hnew.imp ?_
    exact fun h _ => h
  · refine hold.imp ?_
    exact fun h h' => absurd h' (Nat.not_lt.2 h)

/-- Sorted lists of nodes that are handed their sorted ranks are dealt anew. -/
theorem redealt_of_map_eq {old new : NodeId → Nat} {pool : List Nat}
    (hids : ids = sortBy old before ++ sortBy old after)
    (hpool : pool = (ids.map old).mergeSort) (hnew : ids.map new = pool)
    (hinj : (ids.map old).Nodup) (hout : ∀ x ∉ ids, new x = old x) :
    Redealt before after old new := by
  have hperm : pool.Perm (ids.map old) := hpool ▸ List.mergeSort_perm _ _
  have hsorted : pool.Pairwise (· ≤ ·) := by
    have h : pool.Pairwise fun m n => decide (m ≤ n) = true := hpool ▸
      List.pairwise_mergeSort (fun _ _ _ => by simpa using Nat.le_trans)
        (fun _ _ => by simpa using Nat.le_total _ _) (ids.map old)
    exact h.imp fun hmn => of_decide_eq_true hmn
  have hlt : ids.Pairwise fun x y => new x < new y := by
    have hnodup : pool.Nodup := hperm.nodup_iff.2 hinj
    have h : pool.Pairwise (· < ·) := hsorted.imp₂ (fun _ _ => Nat.lt_of_le_of_ne) hnodup
    rw [← hnew] at h
    exact List.pairwise_map.1 h
  rw [hids] at hlt
  obtain ⟨hltb, hlta, hacross⟩ := List.pairwise_append.1 hlt
  have hsplit : pool.Perm ((sortBy old before).map old ++ (sortBy old after).map old) := by
    rw [← List.map_append, ← hids]
    exact hperm
  have hlen : pool.length = (sortBy old before).length + (sortBy old after).length := by
    rw [hsplit.length_eq, List.length_append, List.length_map, List.length_map]
  refine ⟨fun x hb ha => hout x ?_, ?_, ?_, ?_, ?_, ?_, ?_⟩
  · rw [hids, List.mem_append, mem_sortBy, mem_sortBy]
    exact not_or.2 ⟨hb, ha⟩
  · have hids' : ids.Perm (before ++ after) :=
      hids ▸ (sortBy_perm _ _).append (sortBy_perm _ _)
    exact (hids'.map new).symm.trans ((hnew ▸ hperm).trans (hids'.map old))
  · intro x hx y hy
    exact lt_of_pairwise (pairwise_sortBy old before) hltb x ((mem_sortBy old).2 hx) y
      ((mem_sortBy old).2 hy)
  · intro x hx y hy
    exact lt_of_pairwise (pairwise_sortBy old after) hlta x ((mem_sortBy old).2 hx) y
      ((mem_sortBy old).2 hy)
  · intro x hx y hy
    exact hacross x ((mem_sortBy old).2 hx) y ((mem_sortBy old).2 hy)
  · intro x hx
    obtain ⟨i, hi, rfl⟩ := List.mem_iff_getElem.1 ((mem_sortBy old).2 hx)
    have h := getElem_le_left_of_perm (i := i) hsorted hsplit
      (List.pairwise_map.2 (pairwise_sortBy old before)) (by simpa using hi) (by omega)
    simpa [← hnew, hids, List.getElem_append, hi] using h
  · intro x hx
    obtain ⟨i, hi, rfl⟩ := List.mem_iff_getElem.1 ((mem_sortBy old).2 hx)
    have h := right_le_getElem_of_perm (i := i) hsorted hsplit
      (List.pairwise_map.2 (pairwise_sortBy old after)) (by simpa using hi)
      (by rw [List.length_map]; omega)
    simpa [← hnew, hids] using h

end Graph

end WaitFor
