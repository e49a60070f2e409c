import WaitFor.Proofs.Graph.Dealing
import WaitFor.Proofs.Graph.Sound
import WaitFor.Proofs.Graph.Sweeps

/-! # The effect of an insertion

The searches of an insertion of `a → b` find the nodes that `b` leads to below the rank of `a`, and
the nodes that lead to `a` above the rank of `b`.  If `b` does not lead to `a`, the two sets are
disjoint, and dealing their ranks out again puts `a` before `b` and keeps every edge in order.

`Graph.insertEdge_outcome` says all that an insertion can do.
-/

namespace WaitFor.Graph

open Relation

variable {g g' : Graph} {a b x y : NodeId} {before after : List NodeId}

/-! ## The searches -/

/-- Below a bound on the ranks, edges lead nowhere by a detour above it. -/
theorem steps_below_iff (hg : g.Sound) {bound : Nat} (ha : g.rank a < bound) :
    ReflTransGen (g.below bound).Step a x ↔ g.Leads a x ∧ g.rank x < bound := by
  constructor
  · intro hx
    induction hx with
    | refl => exact ⟨.refl g a, ha⟩
    | tail _ hyz ih => exact ⟨ih.1.tail hyz.1, by simpa [below] using hyz.2⟩
  · rintro ⟨hx, hbound⟩
    induction hx with
    | refl => exact .refl
    | tail _ hyz ih =>
      refine (ih (Nat.lt_trans (hg.rank_lt hyz) hbound)).tail ⟨hyz, ?_⟩
      simpa [below] using hbound

/-- The search from `b` misses `a` exactly if `b` does not lead to `a`, and then it finds what `b`
leads to below the rank of `a`. -/
theorem descendantsBelow_spec (hg : g.Sound) (ha : g.contains a = true) (hb : g.contains b = true)
    (hlt : g.rank b < g.rank a) :
    let s := g.descendantsBelow b (g.rank a)
    s.marked = s.found ∧ s.found.Nodup ∧ (s.complete = false ↔ g.Leads b a) ∧
      (s.complete = true → ∀ x, x ∈ s.found ↔ g.Leads b x ∧ g.rank x < g.rank a) := by
  intro s
  have hrun : (g.below (g.rank a)).Run g.nodeCount [] g.marked [b] s :=
    Window.run_sweep _ _ _ _ _
  rw [hg.marked] at hrun
  have hmarked : s.marked = s.found ∧ s.found.Nodup := by
    obtain ⟨met, hf, hm, hnodup, -⟩ := hrun.marked_eq
    rw [List.append_nil] at hf hm
    exact ⟨hm.trans hf.symm, hf ▸ hnodup⟩
  have hsize : ∀ x, ∀ y ∈ (g.below (g.rank a)).next x, y.index < g.nodeCount :=
    fun x y hy => contains_iff.1 (hg.contains_right hy)
  refine ⟨hmarked.1, hmarked.2, ?_, fun hs x => ?_⟩
  · rw [hrun.complete_eq_false_iff hsize (contains_iff.1 hb)]
    constructor
    · rintro ⟨x, y, hx, hy, hya⟩
      have hy : g.Edge x y := hy
      have hya : y = a := hg.rank_inj (hg.contains_right hy) ha (by simpa [below] using hya)
      exact hya ▸ ((steps_below_iff hg hlt).1 hx).1.tail hy
    · intro h
      rcases ReflTransGen.cases_tail h with rfl | ⟨c, hbc, hca⟩
      · exact absurd hlt (Nat.lt_irrefl _)
      · exact ⟨c, a, (steps_below_iff hg hlt).2 ⟨hbc, hg.rank_lt hca⟩, hca, by simp [below]⟩
  · rw [hrun.mem_found_iff hs hsize (contains_iff.1 hb), steps_below_iff hg hlt]

/-- The search from `a` against the edges finds what leads to `a` above the rank of `b`, if none of
that is marked. -/
theorem ancestorsAbove_spec (hg : g.Sound) {marked : List NodeId} (ha : g.contains a = true)
    (hlt : g.rank b < g.rank a) (hmarked : ∀ x ∈ marked, ¬ g.Leads x a) :
    let s := ({ g with marked } : Graph).ancestorsAbove a (g.rank b)
    s.marked = s.found ++ marked ∧ s.found.Nodup ∧ (∀ x ∈ s.found, x ∉ marked) ∧
      ∀ x, x ∈ s.found ↔ g.Leads x a ∧ g.rank b < g.rank x := by
  intro s
  have hrun : (g.above (g.rank b)).Run g.nodeCount [] marked [a] s :=
    Window.run_sweep _ _ _ _ _
  obtain ⟨met, hf, hm, hnodup, hfresh⟩ := hrun.marked_eq
  rw [List.append_nil] at hf
  rw [← hf] at hm hnodup hfresh
  have hcomplete : s.complete = true := by
    by_contra hs
    obtain ⟨x, _, y, _, h⟩ := hrun.target_of_incomplete (by simpa using hs)
    exact absurd h (by simp [above])
  have hsound : ∀ x ∈ s.found, g.Leads x a ∧ g.rank b < g.rank x := by
    refine hrun.found_of_step ?_ (by simp) (by simpa using ⟨Leads.refl g a, hlt⟩)
    intro x y hx hy hin
    exact ⟨hx.1.head (hg.mem_predecessors.1 hy), by simpa [above] using hin⟩
  have hclosed : ∀ x ∈ s.found, ∀ y ∈ g.predecessors x, g.rank b < g.rank y → y ∈ s.marked := by
    intro x hx y hy hrank
    have := hrun.closed_of_complete hcomplete
      (fun x y hy => contains_iff.1 (contains_of_mem_successors (hg.mem_predecessors.1 hy)))
      (by simp) x hx y hy
    exact this.2 (by simpa [above] using hrank)
  -- What leads to `a` is found as soon as it is marked, since it was not marked before.
  have hfound : ∀ x, g.Leads x a → x ∈ s.marked → x ∈ s.found := by
    intro x hx hxm
    rcases List.mem_append.1 (hm ▸ hxm) with h | h
    · exact h
    · exact absurd hx (hmarked x h)
  refine ⟨hm, hnodup, hfresh, fun x => ⟨hsound x, fun h => ?_⟩⟩
  obtain ⟨hx, hrank⟩ := h
  induction hx using ReflTransGen.head_induction_on with
  | refl =>
    have hmem := hrun.mem_marked_of_complete hcomplete List.mem_cons_self (contains_iff.1 ha)
    exact hfound a (Leads.refl g a) hmem
  | head hyz hza ih =>
    have hz := ih (Nat.lt_trans hrank (hg.rank_lt hyz))
    exact hfound _ (hza.head hyz) (hclosed _ hz _ (hg.mem_predecessors.2 hyz) hrank)

/-! ## The order after dealing -/

/-- Dealing changes only ranks and marks, and leaves no mark if it covers all marked nodes. -/
theorem redeal_spec (hnodup : (before ++ after).Nodup)
    (hc : ∀ x ∈ before ++ after, g.contains x = true)
    (hinj : ((before ++ after).map g.rank).Nodup) (hm : ∀ x ∈ g.marked, x ∈ before ++ after) :
    SameEdges g (g.redeal before after) ∧ (g.redeal before after).marked = [] ∧
      Redealt before after g.rank (g.redeal before after).rank := by
  have hperm : (sortBy g.rank before ++ sortBy g.rank after).Perm (before ++ after) :=
    (sortBy_perm _ _).append (sortBy_perm _ _)
  obtain ⟨hcount, hsucc, hpred, hmarked, hedges⟩ :=
    assignRanks_fields g (sortBy g.rank before ++ sortBy g.rank after)
      ((sortBy g.rank before ++ sortBy g.rank after).map g.rank).mergeSort
  refine ⟨⟨hcount, hsucc, hpred, hedges⟩, ?_, ?_⟩
  · rw [redeal, unmark, hmarked]
    refine List.filter_eq_nil_iff.2 fun x hx => ?_
    simpa [or_iff_not_imp_left] using hperm.mem_iff.2 (hm x hx)
  · refine redealt_of_map_eq rfl rfl (map_rank_assignRanks ?_ ?_ ?_) ?_ fun x hx => ?_
    · exact hperm.nodup_iff.2 hnodup
    · exact fun x hx => hc x (hperm.mem_iff.1 hx)
    · rw [List.length_mergeSort, List.length_map]
    · exact (hperm.map _).nodup_iff.2 hinj
    · exact rank_assignRanks_of_not_mem hx

/-- The ranks dealt out lie between those of the two ends of the new edge. -/
theorem Redealt.between {old new : NodeId → Nat} {low high : Nat}
    (h : Redealt before after old new) (hold : ∀ x ∈ before ++ after, low ≤ old x ∧ old x ≤ high) :
    ∀ x ∈ before ++ after, low ≤ new x ∧ new x ≤ high := by
  intro x hx
  obtain ⟨z, hz, hzx⟩ := List.mem_map.1 (h.pool.mem_iff.1 (List.mem_map_of_mem (f := new) hx))
  exact hzx ▸ hold z hz

/-- Dealing the ranks of some nodes out again permutes the ranks of all. -/
theorem Redealt.perm_ids (h : Redealt before after g.rank g'.rank)
    (hnodup : (before ++ after).Nodup) (hc : ∀ x ∈ before ++ after, g.contains x = true) :
    (g.ids.map g'.rank).Perm (g.ids.map g.rank) := by
  have hmem : (g.ids.filter fun x => x ∈ before ++ after).Perm (before ++ after) := by
    refine (List.perm_ext_iff_of_nodup ((nodup_ids g).filter _) hnodup).2 fun x => ?_
    rw [List.mem_filter, mem_ids, decide_eq_true_iff]
    exact ⟨fun hx => hx.2, fun hx => ⟨hc x hx, hx⟩⟩
  set rest := g.ids.filter fun x => !decide (x ∈ before ++ after)
  have hsplit : ((before ++ after) ++ rest).Perm g.ids :=
    (hmem.symm.append_right _).trans (List.filter_append_perm _ _)
  have hout : rest.map g'.rank = rest.map g.rank := by
    refine List.map_congr_left fun x hx => ?_
    have hx : x ∉ before ++ after := by simpa using (List.mem_filter.1 hx).2
    rw [List.mem_append, not_or] at hx
    exact h.outside x hx.1 hx.2
  have hpool := h.pool.append_right (rest.map g'.rank)
  rw [← List.map_append] at hpool
  rw [hout, ← List.map_append] at hpool
  exact (hsplit.map _).symm.trans (hpool.trans (hsplit.map _))

/-- Ranks dealt to what leads to `a` before what `b` leads to go up along every edge. -/
theorem Redealt.rank_lt (h : Redealt before after g.rank g'.rank) (hg : g.Sound)
    (ha : g.contains a = true) (hb : g.contains b = true) (hcycle : ¬ g.Leads b a)
    (hbefore : ∀ x, x ∈ before ↔ g.Leads x a ∧ g.rank b < g.rank x)
    (hafter : ∀ x, x ∈ after ↔ g.Leads b x ∧ g.rank x < g.rank a) (hxy : g.Edge x y) :
    g'.rank x < g'.rank y := by
  have hlt := hg.rank_lt hxy
  have hbetween : ∀ x ∈ before ++ after, g.rank b ≤ g'.rank x ∧ g'.rank x ≤ g.rank a := by
    refine h.between fun z hz => ?_
    rcases List.mem_append.1 hz with hz | hz
    · obtain ⟨hza, hbz⟩ := (hbefore z).1 hz
      exact ⟨Nat.le_of_lt hbz, hg.rank_le_of_leads hza⟩
    · obtain ⟨hbz, hza⟩ := (hafter z).1 hz
      exact ⟨hg.rank_le_of_leads hbz, Nat.le_of_lt hza⟩
  by_cases hyb : y ∈ before
  · by_cases hxb : x ∈ before
    · exact h.before_lt x hxb y hyb hlt
    -- `x` leads to `a` as well, so it is ranked below `b`, and keeps its rank.
    · have hxa : g.Leads x a := ((hbefore y).1 hyb).1.head hxy
      have hxaft : x ∉ after := fun hx => hcycle (((hafter x).1 hx).1.trans hxa)
      have hle : g.rank x ≤ g.rank b := Nat.not_lt.1 fun hbx => hxb ((hbefore x).2 ⟨hxa, hbx⟩)
      have hne : g.rank x ≠ g.rank b := fun heq =>
        hcycle (hg.rank_inj (contains_of_mem_successors hxy) hb heq ▸ hxa)
      have := (hbetween y (List.mem_append_left _ hyb)).1
      rw [h.outside x hxb hxaft]
      omega
  · by_cases hya : y ∈ after
    · by_cases hxb : x ∈ before
      · exact h.across x hxb y hya
      · by_cases hxa : x ∈ after
        · exact h.after_lt x hxa y hya hlt
        · have := h.le_after y hya
          rw [h.outside x hxb hxa]
          omega
    · rw [h.outside y hyb hya]
      by_cases hxb : x ∈ before
      · have := h.before_le x hxb
        omega
      · by_cases hxa : x ∈ after
        -- `b` leads to `y` as well, so it is ranked above `a`, and keeps its rank.
        · have hby : g.Leads b y := ((hafter x).1 hxa).1.tail hxy
          have hle : g.rank a ≤ g.rank y := Nat.not_lt.1 fun hya' => hya ((hafter y).2 ⟨hby, hya'⟩)
          have hne : g.rank a ≠ g.rank y := fun heq =>
            hcycle (hg.rank_inj ha (hg.contains_right hxy) heq ▸ hby)
          have := (hbetween x (List.mem_append_right _ hxa)).2
          omega
        · rw [h.outside x hxb hxa]
          exact hlt

/-! ## Outcomes -/

/-- An edge may be inserted if it joins two allocated nodes and closes no cycle. -/
def Admits (g : Graph) (a b : NodeId) : Prop :=
  g.contains a = true ∧ g.contains b = true ∧ a ≠ b ∧ ¬ g.Leads b a

/-- An edge between allocated nodes that may not be inserted would close a cycle. -/
theorem leads_of_not_admits (ha : g.contains a = true) (hb : g.contains b = true)
    (h : ¬ g.Admits a b) : g.Leads b a := by
  by_contra hleads
  refine h ⟨ha, hb, ?_, hleads⟩
  rintro rfl
  exact hleads (.refl g a)

/-- What the insertion of `a → b` into `g` can do: the edge may not be inserted, or it was there
before, or it is added with its ends in order, or it is added after the ranks of what leads to `a`
and of what `b` leads to were dealt out again. -/
inductive Outcome (g : Graph) (a b : NodeId) : Bool × Graph → Prop
  | refused (h : ¬ g.Admits a b) : Outcome g a b (false, g)
  | present (h : g.Admits a b) (hedge : g.Edge a b) : Outcome g a b (true, g)
  | inOrder (h : g.Admits a b) (hedge : ¬ g.Edge a b) (hlt : g.rank a < g.rank b) :
      Outcome g a b (true, g.link a b)
  | reordered (h : g.Admits a b) (hedge : ¬ g.Edge a b) (hlt : g.rank b < g.rank a)
      (before after : List NodeId) (g' : Graph)
      (hbefore : ∀ x, x ∈ before ↔ g.Leads x a ∧ g.rank b < g.rank x)
      (hafter : ∀ x, x ∈ after ↔ g.Leads b x ∧ g.rank x < g.rank a)
      (hdisjoint : ∀ x ∈ before, x ∉ after) (hdealt : Redealt before after g.rank g'.rank)
      (hsame : SameEdges g g') (hsound : g'.Sound) : Outcome g a b (true, g'.link a b)

/-- An insertion against the order of ranks. -/
theorem outcome_of_rank_lt (hg : g.Sound) (ha : g.contains a = true) (hb : g.contains b = true)
    (hne : a ≠ b) (hedge : ¬ g.Edge a b) (hlt : g.rank b < g.rank a) :
    Outcome g a b (g.insertEdge a b) := by
  obtain ⟨hmarked, hnodup, hcycle, hafter⟩ := descendantsBelow_spec hg ha hb hlt
  set after := g.descendantsBelow b (g.rank a) with hs
  have hinsert : g.insertEdge a b = if after.complete then
      let before := ({ g with marked := after.marked } : Graph).ancestorsAbove a (g.rank b)
      (true, (({ g with marked := before.marked } : Graph).redeal
        before.found after.found).link a b)
      else (false, ({ g with marked := after.marked } : Graph).unmark after.found) := by
    rw [insertEdge, if_neg (by simp [ha, hb]), if_neg hne, if_neg (by simpa [Edge] using hedge),
      if_pos hlt]
    rfl
  rw [hinsert]
  cases hcomplete : after.complete with
  | false =>
    -- The search starts without marks, so its own are all there are to take off.
    have hback : ({ g with marked := after.marked } : Graph).unmark after.found = g := by
      obtain ⟨nodes, edgeCount, marked⟩ := g
      simp [unmark, hmarked, show marked = [] from hg.marked]
    rw [if_neg (by simp), hback]
    exact .refused fun h => h.2.2.2 (hcycle.1 hcomplete)
  | true =>
    have hafter := hafter hcomplete
    have hnot : ¬ g.Leads b a := fun h => by simp [hcycle.2 h] at hcomplete
    have hdisj : ∀ x ∈ after.marked, ¬ g.Leads x a := by
      intro x hx hxa
      exact hnot (((hafter x).1 (hmarked ▸ hx)).1.trans hxa)
    obtain ⟨hbmarked, hbnodup, hbfresh, hbefore⟩ := ancestorsAbove_spec hg ha hlt hdisj
    set before := ({ g with marked := after.marked } : Graph).ancestorsAbove a (g.rank b)
    rw [hmarked] at hbmarked hbfresh
    have hall : (before.found ++ after.found).Nodup :=
      List.nodup_append.2 ⟨hbnodup, hnodup, fun x hx y hy e => hbfresh x hx (e ▸ hy)⟩
    have hc : ∀ x ∈ before.found ++ after.found, g.contains x = true := by
      intro x hx
      rcases List.mem_append.1 hx with hx | hx
      · exact contains_of_leads_to ha ((hbefore x).1 hx).1
      · exact hg.contains_of_leads ((hafter x).1 hx).1 hb
    have hinj : ((before.found ++ after.found).map g.rank).Nodup :=
      hall.map_on fun x hx y hy => hg.rank_inj (hc x hx) (hc y hy)
    obtain ⟨hsame, hunmarked, hdealt⟩ :=
      redeal_spec (g := { g with marked := before.marked }) hall hc hinj
        fun x hx => by simpa [hbmarked] using hx
    set g' := ({ g with marked := before.marked } : Graph).redeal before.found after.found
    have hsame : SameEdges g g' := ⟨hsame.1, hsame.2, hsame.3, hsame.4⟩
    have hdealt : Redealt before.found after.found g.rank g'.rank := hdealt
    have hsound : g'.Sound := hg.of_sameEdges hsame (hdealt.perm_ids hall hc)
      (hdealt.rank_lt hg ha hb hnot hbefore hafter) hunmarked
    exact .reordered ⟨ha, hb, hne, hnot⟩ hedge hlt before.found after.found g' hbefore hafter
      hbfresh hdealt hsame hsound

/-- All that an insertion can do to a sound graph. -/
theorem insertEdge_outcome (hg : g.Sound) (a b : NodeId) : Outcome g a b (g.insertEdge a b) := by
  by_cases hc : g.contains a = true ∧ g.contains b = true
  · obtain ⟨ha, hb⟩ := hc
    by_cases hne : a = b
    · have : g.insertEdge a b = (false, g) := by simp [insertEdge, hne]
      exact this ▸ .refused fun h => h.2.2.1 hne
    · by_cases hedge : g.Edge a b
      · have : g.insertEdge a b = (true, g) := by
          simp [insertEdge, ha, hb, hne, show b ∈ g.successors a from hedge]
        refine this ▸ .present ⟨ha, hb, hne, fun h => ?_⟩ hedge
        exact hne (hg.leads_antisymm (.single hedge) h)
      · by_cases hlt : g.rank b < g.rank a
        · exact outcome_of_rank_lt hg ha hb hne hedge hlt
        · have : g.insertEdge a b = (true, g.link a b) := by
            simp [insertEdge, ha, hb, hne, hlt, show b ∉ g.successors a from hedge]
          have hlt' : g.rank a < g.rank b := by
            have : g.rank a ≠ g.rank b := fun h => hne (hg.rank_inj ha hb h)
            omega
          refine this ▸ .inOrder ⟨ha, hb, hne, fun h => ?_⟩ hedge hlt'
          exact hlt (hg.rank_lt_of_leads h (Ne.symm hne))
  · have : g.insertEdge a b = (false, g) := by
      rw [insertEdge, if_pos (by simpa [imp_iff_not_or] using hc)]
    exact this ▸ .refused fun h => hc ⟨h.1, h.2.1⟩

/-- Whatever an insertion does, the graph stays sound. -/
theorem Outcome.sound {r : Bool × Graph} (hg : g.Sound) (h : Outcome g a b r) : r.2.Sound := by
  cases h with
  | refused _ => exact hg
  | present _ _ => exact hg
  | inOrder h hedge hlt => exact hg.link h.1 h.2.1 hedge hlt
  | reordered h hedge hlt before after g' hbefore hafter _ hdealt hsame hsound =>
    refine hsound.link ?_ ?_ ?_ ?_
    · rw [hsame.contains]
      exact h.1
    · rw [hsame.contains]
      exact h.2.1
    · rw [hsame.edge]
      exact hedge
    · have ha : a ∈ before := (hbefore a).2 ⟨.refl g a, hlt⟩
      have hb : b ∈ after := (hafter b).2 ⟨.refl g b, hlt⟩
      exact hdealt.across a ha b hb

/-- Insertions keep graphs sound. -/
theorem Sound.insertEdge (hg : g.Sound) (a b : NodeId) : (g.insertEdge a b).2.Sound :=
  (insertEdge_outcome hg a b).sound hg

/-- An edge that closes a cycle, or does not join two nodes, is refused without a trace. -/
theorem insertEdge_of_not_admits (hg : g.Sound) (h : ¬ g.Admits a b) :
    g.insertEdge a b = (false, g) := by
  have hout := insertEdge_outcome hg a b
  generalize g.insertEdge a b = r at hout ⊢
  cases hout with
  | refused _ => rfl
  | present h' => exact absurd h' h
  | inOrder h' => exact absurd h' h
  | reordered h' => exact absurd h' h

/-- An edge that is there could be inserted. -/
theorem Sound.admits_of_edge (hg : g.Sound) (h : g.Edge a b) : g.Admits a b := by
  have hlt := hg.rank_lt h
  refine ⟨contains_of_mem_successors h, hg.contains_right h, ?_, fun hleads => ?_⟩
  · rintro rfl
    exact Nat.lt_irrefl _ hlt
  · exact absurd hlt (Nat.not_lt.2 (hg.rank_le_of_leads hleads))

/-- The insertion of an edge that is there changes nothing. -/
theorem insertEdge_of_edge (hg : g.Sound) (h : g.Edge a b) : g.insertEdge a b = (true, g) := by
  have hout := insertEdge_outcome hg a b
  generalize g.insertEdge a b = r at hout ⊢
  cases hout with
  | refused h' => exact absurd (hg.admits_of_edge h) h'
  | present => rfl
  | inOrder _ hedge => exact absurd h hedge
  | reordered _ hedge => exact absurd h hedge

/-- Any other edge is there afterwards, with all that was there before. -/
theorem insertEdge_of_admits (hg : g.Sound) (h : g.Admits a b) :
    (g.insertEdge a b).1 = true ∧
      (∀ x, (g.insertEdge a b).2.contains x = g.contains x) ∧
      ∀ x y, (g.insertEdge a b).2.Edge x y ↔ g.Edge x y ∨ x = a ∧ y = b := by
  have hout := insertEdge_outcome hg a b
  generalize g.insertEdge a b = r at hout ⊢
  cases hout with
  | refused h' => exact absurd h h'
  | present _ hedge =>
    refine ⟨rfl, fun x => rfl, fun x y => ⟨.inl, ?_⟩⟩
    rintro (h | ⟨rfl, rfl⟩)
    · exact h
    · exact hedge
  | inOrder => exact ⟨rfl, fun x => contains_link, fun x y => edge_link h.1⟩
  | reordered _ _ _ _ _ g' _ _ _ _ hsame =>
    refine ⟨rfl, fun x => ?_, fun x y => ?_⟩
    · rw [contains_link, hsame.contains]
    · have ha : g'.contains a = true := by
        rw [hsame.contains]
        exact h.1
      rw [edge_link ha, hsame.edge]

/-- The edge stands last at its source if it is new; no other node gets a next node. -/
theorem insertEdge_successors (hg : g.Sound) (h : g.Admits a b) (x : NodeId) :
    (g.insertEdge a b).2.successors x =
      if x = a then addLast (g.successors a) b else g.successors x := by
  have hout := insertEdge_outcome hg a b
  generalize g.insertEdge a b = r at hout ⊢
  cases hout with
  | refused h' => exact absurd h h'
  | present _ hedge =>
    rw [addLast, if_pos (show b ∈ g.successors a from hedge)]
    split
    · next hx => rw [hx]
    · rfl
  | inOrder => exact successors_link h.1
  | reordered _ _ _ _ _ g' _ _ _ _ hsame =>
    have ha : g'.contains a = true := by
      rw [hsame.contains]
      exact h.1
    rw [successors_link ha, hsame.successors]

/-- The edge stands last at its target if it is new; no other node gets a node before it. -/
theorem insertEdge_predecessors (hg : g.Sound) (h : g.Admits a b) (x : NodeId) :
    (g.insertEdge a b).2.predecessors x =
      if x = b then addLast (g.predecessors b) a else g.predecessors x := by
  have hout := insertEdge_outcome hg a b
  generalize g.insertEdge a b = r at hout ⊢
  cases hout with
  | refused h' => exact absurd h h'
  | present _ hedge =>
    rw [addLast, if_pos (hg.mem_predecessors.2 hedge)]
    split
    · next hx => rw [hx]
    · rfl
  | inOrder => exact predecessors_link h.2.1
  | reordered _ _ _ _ _ g' _ _ _ _ hsame =>
    have hb : g'.contains b = true := by
      rw [hsame.contains]
      exact h.2.1
    rw [predecessors_link hb, hsame.predecessors]

/-- An insertion adds no nodes. -/
theorem insertEdge_nodeCount (hg : g.Sound) (a b : NodeId) :
    (g.insertEdge a b).2.nodeCount = g.nodeCount := by
  have hout := insertEdge_outcome hg a b
  generalize g.insertEdge a b = r at hout ⊢
  cases hout with
  | refused => rfl
  | present => rfl
  | inOrder => exact nodeCount_link
  | reordered _ _ _ _ _ g' _ _ _ _ hsame => exact nodeCount_link.trans hsame.nodeCount

/-- An admitted edge is counted once. -/
theorem insertEdge_edgeCount (hg : g.Sound) (h : g.Admits a b) :
    (g.insertEdge a b).2.edgeCount =
      if b ∈ g.successors a then g.edgeCount else g.edgeCount + 1 := by
  have hout := insertEdge_outcome hg a b
  generalize g.insertEdge a b = r at hout ⊢
  cases hout with
  | refused h' => exact absurd h h'
  | present _ hedge => exact (if_pos hedge).symm
  | inOrder _ hedge => exact (if_neg hedge).symm
  | reordered _ hedge _ _ _ g' _ _ _ _ hsame =>
    rw [if_neg (show b ∉ g.successors a from hedge), edgeCount_link, hsame.edgeCount]

end WaitFor.Graph
