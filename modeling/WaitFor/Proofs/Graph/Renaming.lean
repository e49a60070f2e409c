import WaitFor.Proofs.Graph.Breadth
import WaitFor.Proofs.Graph.Insertion

/-! # Copies of a graph

`Graph.Embeds f g g'` says that `g'` holds a copy of `g`, in which the nodes go by the names that
`f` gives them.  Nothing is said of ranks: they may be dealt in another order, and other nodes may
be ranked in between.  Still both graphs accept the same edges and show the same paths.

For paths this needs an argument, since the two searches enter different nodes.  But a node that
does not lead to the goal is met in vain, and so the nodes that do are met in one and the same
order: both searches are the search that enters these nodes only (`Search.image`), and a search
takes its turns in one way. -/

namespace WaitFor

open Relation

/-! ## Searches for one goal -/

variable {f : NodeId → NodeId} {S : NodeId → Prop} {w w' : Scope} {a b n v x y : NodeId}
  {parents parents' : Parents} {beside queue nodes : List NodeId} {r r' : Parents × Bool}

/-- A search takes its turns in one way. -/
theorem Search.eq (h : Search w a b parents n beside queue r)
    (h' : Search w a b parents n beside queue r') : r = r' := by
  induction h with
  | fail =>
    cases h'
    rfl
  | turn _ ih =>
    cases h' with
    | turn rest => exact ih rest
  | pass hv _ ih =>
    cases h' with
    | pass _ rest => exact ih rest
    | reach hb => exact absurd hb hv
    | meet hv' => exact absurd hv' hv
  | reach hb =>
    cases h' with
    | pass hv => exact absurd hb hv
    | reach => rfl
    | meet _ hvb => exact absurd rfl hvb
  | meet hv hvb _ ih =>
    cases h' with
    | pass hv' => exact absurd hv hv'
    | reach => exact absurd rfl hvb
    | meet _ _ rest => exact ih rest

/-- Under the names that `f` gives, `w'` sees what `w` sees of the nodes in `S`, which no step of
`w` enters from outside. -/
structure Scope.Image (w w' : Scope) (f : NodeId → NodeId) (S : NodeId → Prop) : Prop where
  injective : Function.Injective f
  next : ∀ {x}, S x → w'.next (f x) = (w.next x).map f
  enters : ∀ {x y}, S x → y ∈ w.next x → (w'.enters (f y) ↔ w.enters y ∧ S y)
  closed : ∀ {x y}, w.Step x y → S y → S x

/-- The nodes in `S` have the same parents in both tables, under the names that `f` gives. -/
def Parents.Image (parents parents' : Parents) (f : NodeId → NodeId) (S : NodeId → Prop) : Prop :=
  ∀ v, S v → parents'.get? (f v) = (parents.get? v).map f

namespace Parents.Image

/-- A node that is met in both searches has the same parent in both. -/
theorem insert (h : parents.Image parents' f S) (hf : Function.Injective f) (v n : NodeId) :
    Parents.Image (Table.insert parents v n) (Table.insert parents' (f v) (f n)) f S := by
  intro x hx
  rw [Table.get?_insert, Table.get?_insert, h x hx]
  by_cases hv : v = x
  · rw [if_pos hv, if_pos (congrArg f hv), Option.map_some]
  · rw [if_neg hv, if_neg (hf.ne hv)]

/-- A node outside leaves no trace among the nodes in `S`. -/
theorem insert_outside (h : parents.Image parents' f S) (hv : ¬ S v) :
    Parents.Image (Table.insert parents v n) parents' f S := by
  intro x hx
  rw [Table.get?_insert, if_neg, h x hx]
  rintro rfl
  exact hv hx

/-- The way down to a node in `S` stays in `S`. -/
theorem descent (h : parents.Image parents' f S)
    (hclosed : ∀ {v n}, parents.get? v = some n → S v → S n) (hd : parents.Descent v nodes)
    (hv : S v) : parents'.Descent (f v) (nodes.map f) := by
  induction hd with
  | root hroot => exact .root (by rw [h _ hv, hroot, Option.map_none])
  | child hparent _ ih =>
    rw [List.map_append, List.map_singleton]
    exact .child (by rw [h _ hv, hparent, Option.map_some]) (ih (hclosed hparent hv))

end Parents.Image

namespace Scope.Image

/-- A node in `S` is met for the first time in both searches at once. -/
theorem fresh_iff (hw : w.Image w' f S) (h : parents.Image parents' f S) (hn : S n)
    (hnv : v ∈ w.next n) (hv : S v) : w'.Fresh (f a) parents' (f v) ↔ w.Fresh a parents v := by
  have hmet : MetFrom (f a) parents' (f v) ↔ MetFrom a parents v := by
    rw [MetFrom, MetFrom, hw.injective.eq_iff, Table.contains, Table.contains, h v hv,
      Option.isSome_map]
  rw [Scope.Fresh, Scope.Fresh, hmet, hw.enters hn hnv, and_iff_left hv]

/-- The search of the image never enters a node from outside. -/
theorem not_fresh (hw : w.Image w' f S) (hn : S n) (hnv : v ∈ w.next n) (hv : ¬ S v) :
    ¬ w'.Fresh (f a) parents' (f v) :=
  fun h => hv ((hw.enters hn hnv).1 h.2).2

end Scope.Image

open Classical in
/-- A search for a goal in `S` is, under other names, the search that enters the nodes in `S` only:
when it looks at the nodes beside a node outside `S`, the other search stands still. -/
theorem Search.image (hw : w.Image w' f S) (hb : S b) (h : Search w a b parents n beside queue r)
    (hbeside : beside ⊆ w.next n) (hparents : parents.Image parents' f S) {m : NodeId}
    {beside' : List NodeId}
    (hcurrent : S n ∧ m = f n ∧ beside' = beside.map f ∨ ¬ S n ∧ beside' = []) :
    ∃ r', Search w' (f a) (f b) parents' m beside' ((queue.filter S).map f) r' ∧
      r.1.Image r'.1 f S := by
  induction h generalizing parents' m beside' with
  | fail =>
    obtain rfl : beside' = [] := hcurrent.elim (fun h => h.2.2) And.right
    exact ⟨_, .fail, hparents⟩
  | @turn _ _ next queue _ _ ih =>
    obtain rfl : beside' = [] := hcurrent.elim (fun h => h.2.2) And.right
    by_cases hnext : S next
    · obtain ⟨r', hsearch, hr⟩ := ih (List.Subset.refl _) hparents (Or.inl ⟨hnext, rfl, rfl⟩)
      rw [List.filter_cons_of_pos (by simpa using hnext), List.map_cons]
      exact ⟨r', .turn (hw.next hnext ▸ hsearch), hr⟩
    · rw [List.filter_cons_of_neg (by simpa using hnext)]
      exact ih (List.Subset.refl _) hparents (Or.inr ⟨hnext, rfl⟩)
  | @pass _ _ v _ _ _ hv _ ih =>
    obtain ⟨hnv, hbeside⟩ := List.cons_subset.1 hbeside
    rcases hcurrent with ⟨hn, rfl, rfl⟩ | hn
    · obtain ⟨r', hsearch, hr⟩ := ih hbeside hparents (Or.inl ⟨hn, rfl, rfl⟩)
      refine ⟨r', .pass (fun hfresh => ?_) hsearch, hr⟩
      by_cases hvS : S v
      · exact hv ((hw.fresh_iff hparents hn hnv hvS).1 hfresh)
      · exact hw.not_fresh hn hnv hvS hfresh
    · exact ih hbeside hparents (Or.inr hn)
  | @reach _ n _ _ hfresh =>
    have hnb := hbeside List.mem_cons_self
    have hn : S n := hw.closed ⟨hnb, hfresh.2⟩ hb
    obtain ⟨-, rfl, rfl⟩ := hcurrent.resolve_right fun h => h.1 hn
    exact ⟨_, .reach ((hw.fresh_iff hparents hn hnb hb).2 hfresh), hparents.insert hw.injective b n⟩
  | @meet _ n v _ queue _ hv hvb _ ih =>
    obtain ⟨hnv, hbeside⟩ := List.cons_subset.1 hbeside
    by_cases hvS : S v
    · have hn : S n := hw.closed ⟨hnv, hv.2⟩ hvS
      obtain ⟨-, rfl, rfl⟩ := hcurrent.resolve_right fun h => h.1 hn
      obtain ⟨r', hsearch, hr⟩ := ih hbeside (hparents.insert hw.injective v n)
        (Or.inl ⟨hn, rfl, rfl⟩)
      rw [List.filter_append, List.filter_cons_of_pos (by simpa using hvS), List.map_append]
        at hsearch
      exact ⟨r', .meet ((hw.fresh_iff hparents hn hnv hvS).2 hv) (hw.injective.ne hvb) hsearch, hr⟩
    · have hqueue : (queue ++ [v]).filter S = queue.filter S := by
        rw [List.filter_append, List.filter_cons_of_neg (by simpa using hvS), List.filter_nil,
          List.append_nil]
      rcases hcurrent with ⟨hn, rfl, rfl⟩ | hn
      · obtain ⟨r', hsearch, hr⟩ := ih hbeside (hparents.insert_outside hvS)
          (Or.inl ⟨hn, rfl, rfl⟩)
        rw [hqueue] at hsearch
        exact ⟨r', .pass (hw.not_fresh hn hnv hvS) hsearch, hr⟩
      · rw [← hqueue]
        exact ih hbeside (hparents.insert_outside hvS) (Or.inr hn)

/-- The path that a search finds is, under other names, found by the search that enters the nodes in
`S` only. -/
theorem Search.image_descent (hw : w.Image w' f S) (ha : S a) (hb : S b) (hne : a ≠ b)
    (h : Search w a b .empty a (w.next a) [] r) (hr : r.2 = true) (hd : r.1.Descent b nodes) :
    ∃ r', Search w' (f a) (f b) .empty (f a) (w'.next (f a)) [] r' ∧
      r'.1.Descent (f b) (nodes.map f) := by
  have hparents : Parents.Image .empty .empty f S := fun _ _ => rfl
  obtain ⟨r', hsearch, himage⟩ :=
    h.image hw hb (List.Subset.refl _) hparents (Or.inl ⟨ha, rfl, rfl⟩)
  obtain ⟨depth, htree, -⟩ := (h.shortest (.start hne)).1 hr
  rw [← hw.next ha] at hsearch
  exact ⟨r', hsearch, himage.descent (fun hn hv => hw.closed (htree.parent hn).1 hv) hd hb⟩

/-- The same route, with other names for its nodes. -/
def Route.renamed (f : NodeId → NodeId) (route : Route) : Route :=
  { route with nodes := route.nodes.map f }

/-- A path is cut at the same place under other names. -/
theorem Route.renamed_ofNodes (f : NodeId → NodeId) (nodes : List NodeId) (maxLength : Nat) :
    (Route.ofNodes nodes maxLength).renamed f = .ofNodes (nodes.map f) maxLength := by
  rw [renamed, ofNodes, ofNodes, List.map_take, List.length_map]

namespace Graph

variable {g g' : Graph}

/-! ## Copies -/

/-- `g'` holds a copy of `g`, with the names for its nodes that `f` gives. -/
structure Embeds (f : NodeId → NodeId) (g g' : Graph) : Prop where
  injective : Function.Injective f
  contains : ∀ {x}, g.contains x = true → g'.contains (f x) = true
  successors : ∀ {x}, g.contains x = true → g'.successors (f x) = (g.successors x).map f

/-- The next nodes of `g` are given the names of the next nodes of `g'`. -/
def Aligned (f : NodeId → NodeId) (g g' : Graph) : Prop :=
  ∀ k, f ⟨g.nodeCount + k⟩ = ⟨g'.nodeCount + k⟩

/-- A graph is a copy of itself. -/
theorem Embeds.id (g : Graph) : Embeds id g g where
  injective := Function.injective_id
  contains := fun h => h
  successors := fun _ => (List.map_id _).symm

/-- The names of nodes that are not allocated yet can be chosen again. -/
theorem Embeds.align (h : Embeds f g g') :
    ∃ f', (∀ x, g.contains x = true → f' x = f x) ∧ Function.Injective f' ∧ Aligned f' g g' := by
  classical
  refine ⟨fun x => if g.contains x = true then f x else ⟨g'.nodeCount + (x.index - g.nodeCount)⟩,
    fun x hx => if_pos hx, fun x y hxy => ?_, fun k => ?_⟩
  · have hnew : ∀ {x : NodeId} {k : Nat}, g.contains x = true → f x ≠ ⟨g'.nodeCount + k⟩ := by
      intro x k hx heq
      have := contains_iff.1 (heq ▸ h.contains hx)
      dsimp only at this
      omega
    dsimp only at hxy
    by_cases hx : g.contains x = true
    · by_cases hy : g.contains y = true
      · rw [if_pos hx, if_pos hy] at hxy
        exact h.injective hxy
      · rw [if_pos hx, if_neg hy] at hxy
        exact absurd hxy (hnew hx)
    · by_cases hy : g.contains y = true
      · rw [if_neg hx, if_pos hy] at hxy
        exact absurd hxy.symm (hnew hy)
      · rw [if_neg hx, if_neg hy, NodeId.mk.injEq] at hxy
        rw [contains_iff, Nat.not_lt] at hx hy
        exact index_eq_iff.1 (by omega)
  · have hnot : ¬ g.contains ⟨g.nodeCount + k⟩ = true := by simp [contains_iff]
    dsimp only
    rw [if_neg hnot, Nat.add_sub_cancel_left]

namespace Embeds

/-- Only the names of allocated nodes matter. -/
theorem congr {f' : NodeId → NodeId} (h : Embeds f g g') (hg : g.Sound)
    (hf : ∀ x, g.contains x = true → f' x = f x) (hinj : Function.Injective f') :
    Embeds f' g g' where
  injective := hinj
  contains hx := hf _ hx ▸ h.contains hx
  successors hx := by
    rw [hf _ hx, h.successors hx]
    exact List.map_congr_left fun y hxy => (hf y (hg.contains_right hxy)).symm

/-- The copies of two nodes have an edge if the nodes have one. -/
theorem edge_iff (h : Embeds f g g') (hx : g.contains x = true) :
    g'.Edge (f x) (f y) ↔ g.Edge x y := by
  rw [Edge, h.successors hx, List.mem_map_of_injective h.injective]
  rfl

/-- What is reached from the copy of a node is the copy of a node. -/
theorem exists_of_leads (h : Embeds f g g') (hg : g.Sound) (hx : g.contains x = true)
    (hxy : g'.Leads (f x) y) : ∃ z, y = f z ∧ g.Leads x z := by
  induction hxy with
  | refl => exact ⟨x, rfl, .refl g x⟩
  | tail _ hedge ih =>
    obtain ⟨z, rfl, hxz⟩ := ih
    rw [Edge, h.successors (hg.contains_of_leads hxz hx)] at hedge
    obtain ⟨y, hzy, rfl⟩ := List.mem_map.1 hedge
    exact ⟨y, rfl, hxz.tail hzy⟩

/-- Edges lead between copies as they do between the nodes. -/
theorem leads_iff (h : Embeds f g g') (hg : g.Sound) (hx : g.contains x = true) :
    g'.Leads (f x) (f y) ↔ g.Leads x y := by
  constructor
  · intro hxy
    obtain ⟨z, heq, hxz⟩ := h.exists_of_leads hg hx hxy
    rwa [h.injective heq]
  · intro hxy
    induction hxy with
    | refl => exact .refl g' (f x)
    | tail hxz hzy ih => exact ih.tail ((h.edge_iff (hg.contains_of_leads hxz hx)).2 hzy)

/-- A copy of an edge is admitted if the edge is. -/
theorem admits_iff (h : Embeds f g g') (hg : g.Sound) (ha : g.contains a = true)
    (hb : g.contains b = true) : g'.Admits (f a) (f b) ↔ g.Admits a b := by
  rw [Admits, Admits, h.leads_iff hg hb, h.injective.ne_iff]
  simp only [ha, hb, h.contains ha, h.contains hb]

/-! ## New nodes and edges -/

/-- Copies are added last as the nodes are. -/
theorem map_addLast (hf : Function.Injective f) (ids : List NodeId) (a : NodeId) :
    (addLast ids a).map f = addLast (ids.map f) (f a) := by
  have hmem : f a ∈ ids.map f ↔ a ∈ ids := List.mem_map_of_injective hf
  rw [addLast, addLast]
  by_cases ha : a ∈ ids
  · rw [if_pos ha, if_pos (hmem.2 ha)]
  · rw [if_neg ha, if_neg (mt hmem.1 ha), List.map_append, List.map_singleton]

/-- A new node has its copy, if both graphs have as many nodes to come. -/
theorem addNode (h : Embeds f g g') (halign : Aligned f g g') :
    f g.addNode.1 = g'.addNode.1 ∧ Embeds f g.addNode.2 g'.addNode.2 ∧
      Aligned f g.addNode.2 g'.addNode.2 := by
  have hnew : f g.addNode.1 = g'.addNode.1 := halign 0
  refine ⟨hnew, ⟨h.injective, fun {x} hx => ?_, fun {x} hx => ?_⟩, fun k => ?_⟩
  · rcases contains_addNode.1 hx with hx | rfl
    · exact contains_addNode.2 (Or.inl (h.contains hx))
    · exact contains_addNode.2 (Or.inr hnew)
  · rw [successors_addNode, successors_addNode]
    rcases contains_addNode.1 hx with hx | rfl
    · exact h.successors hx
    · have hnil : ∀ g : Graph, g.successors g.addNode.1 = [] :=
        fun g => List.eq_nil_iff_forall_not_mem.2 fun _ => g.not_edge_new
      calc
        g'.successors (f g.addNode.1) = g'.successors g'.addNode.1 := congrArg g'.successors hnew
        _ = (g.successors g.addNode.1).map f := by rw [hnil, hnil, List.map_nil]
  · rw [nodeCount_addNode, nodeCount_addNode, Nat.add_assoc, Nat.add_assoc]
    exact halign (1 + k)

/-- A new node beside the copies changes nothing of them. -/
theorem addNode_other (h : Embeds f g g') : Embeds f g g'.addNode.2 where
  injective := h.injective
  contains hx := contains_addNode.2 (Or.inl (h.contains hx))
  successors hx := by rw [successors_addNode, h.successors hx]

/-- The copy of an edge is accepted if the edge is, and it is new if the edge is. -/
theorem insertEdge (h : Embeds f g g') (hg : g.Sound) (hg' : g'.Sound) (ha : g.contains a = true)
    (hb : g.contains b = true) :
    (g'.insertEdge (f a) (f b)).1 = (g.insertEdge a b).1 ∧
      Embeds f (g.insertEdge a b).2 (g'.insertEdge (f a) (f b)).2 ∧
      (g'.insertEdge (f a) (f b)).2.edgeCount + g.edgeCount =
        g'.edgeCount + (g.insertEdge a b).2.edgeCount := by
  by_cases hadm : g.Admits a b
  · have hadm' := (h.admits_iff hg ha hb).2 hadm
    obtain ⟨haccept, hcontains, -⟩ := insertEdge_of_admits hg hadm
    obtain ⟨haccept', hcontains', -⟩ := insertEdge_of_admits hg' hadm'
    have hmem : f b ∈ g'.successors (f a) ↔ b ∈ g.successors a := h.edge_iff ha
    refine ⟨haccept'.trans haccept.symm, ⟨h.injective, fun {x} hx => ?_, fun {x} hx => ?_⟩, ?_⟩
    · rw [hcontains']
      exact h.contains (hcontains x ▸ hx)
    · have hx := hcontains x ▸ hx
      rw [insertEdge_successors hg hadm, insertEdge_successors hg' hadm']
      by_cases hxa : x = a
      · rw [if_pos hxa, if_pos (congrArg f hxa), h.successors ha, map_addLast h.injective]
      · rw [if_neg hxa, if_neg (h.injective.ne hxa), h.successors hx]
    · rw [insertEdge_edgeCount hg hadm, insertEdge_edgeCount hg' hadm']
      simp only [hmem]
      split <;> omega
  · have hadm' := mt (h.admits_iff hg ha hb).1 hadm
    rw [insertEdge_of_not_admits hg hadm, insertEdge_of_not_admits hg' hadm']
    exact ⟨rfl, h, rfl⟩

/-- An edge out of another node leaves the copy as it is. -/
theorem insertEdge_other (h : Embeds f g g') (hg' : g'.Sound)
    (ha : ∀ x, g.contains x = true → f x ≠ a) : Embeds f g (g'.insertEdge a b).2 := by
  by_cases hadm : g'.Admits a b
  · obtain ⟨-, hcontains, -⟩ := insertEdge_of_admits hg' hadm
    refine ⟨h.injective, fun hx => ?_, fun hx => ?_⟩
    · rw [hcontains]
      exact h.contains hx
    · rw [insertEdge_successors hg' hadm, if_neg (ha _ hx), h.successors hx]
  · rw [insertEdge_of_not_admits hg' hadm]
    exact h

end Embeds

/-- Only the numbers of nodes matter for the next copy. -/
theorem Aligned.congr {g₁ g₁' : Graph} (h : Aligned f g g') (hn : g₁.nodeCount = g.nodeCount)
    (hn' : g₁'.nodeCount = g'.nodeCount) : Aligned f g₁ g₁' := by
  rw [Aligned, hn, hn']
  exact h

/-! ## Paths -/

/-- What a search for `b` sees that enters only nodes that lead to `b`. -/
def wayTo (g : Graph) (b : NodeId) : Scope where
  next := g.successors
  enters v := g.Leads v b

namespace Embeds

/-- Among the nodes that a search for `b` enters are all that lead to `b`. -/
theorem image_scope (h : Embeds f g g') (hg : g.Sound) (hb : g.contains b = true) :
    (g.scope b).Image (g'.wayTo (f b)) f fun x => g.Leads x b where
  injective := h.injective
  next hx := h.successors (contains_of_leads_to hb hx)
  enters hx hxy := by
    have hy := hg.contains_right hxy
    exact (h.leads_iff hg hy).trans (iff_and_self.2 fun hyb => hg.rank_le_of_leads hyb)
  closed hxy hy := hy.head hxy.1

/-- The copy of a path is shown where the path is shown. -/
theorem shortestPath? (h : Embeds f g g') (hg : g.Sound) (hg' : g'.Sound)
    (ha : g.contains a = true) (hleads : g.Leads a b) (maxLength : Nat) :
    g'.shortestPath? (f a) (f b) maxLength =
      (g.shortestPath? a b maxLength).map (Route.renamed f) := by
  have ha' := h.contains ha
  have hleads' := (h.leads_iff hg ha).2 hleads
  obtain ⟨nodes, hd, hfound, -⟩ := exists_shortestPath hg ha hleads
  obtain ⟨nodes', hd', hfound', -⟩ := exists_shortestPath hg' ha' hleads'
  suffices hnodes : nodes' = nodes.map f by
    rw [hfound, hfound', hnodes, Option.map_some, Route.renamed_ofNodes]
  by_cases hne : a = b
  · subst hne
    rw [parentsTo, if_pos rfl] at hd hd'
    rw [hd.eq (.root rfl), hd'.eq (.root rfl)]
    rfl
  · have hb := hg.contains_of_leads hleads ha
    have hne' := h.injective.ne hne
    obtain ⟨r, hsearch, hdown⟩ := (g.search_parentsTo hne).image_descent (h.image_scope hg hb)
      hleads (.refl g b) hne (parentsTo_of_leads hg hleads).1 hd
    obtain ⟨r', hsearch', hdown'⟩ := (g'.search_parentsTo hne').image_descent
      ((Embeds.id g').image_scope hg' (h.contains hb)) hleads' (.refl g' (f b)) hne'
      (parentsTo_of_leads hg' hleads').1 hd'
    obtain rfl := hsearch.eq hsearch'
    rw [List.map_id] at hdown'
    exact hdown'.eq hdown

end Embeds

end Graph

end WaitFor
