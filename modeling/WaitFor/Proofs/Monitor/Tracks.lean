import WaitFor.Proofs.Chronicle
import WaitFor.Proofs.Graph.Insertion
import WaitFor.Proofs.Monitor.Nodes

/-! # Nodes that stand for generations

`Tracks` relates the live events and the graph of a monitor to a chronicle: each generation that an
operation referred to has a node of its own, and the edges are the waits between generations, beside
edges into nodes of operations that signal nothing.
-/

namespace WaitFor

open Relation

variable {live live' : LiveEvents} {g g' : Graph} {c : Chronicle EventHandle}
  {node : Nat → Option NodeId} {event : EventHandle} {x y : NodeId} {γ δ : Nat}

/-- The live events and the graph are those of the chronicle, with the nodes that `node` gives to
generations. -/
structure Tracks (live : LiveEvents) (g : Graph) (c : Chronicle EventHandle)
    (node : Nat → Option NodeId) : Prop where
  sound : g.Sound
  contains : ∀ event, live.contains event = (c.current event).isSome
  node? : ∀ {event γ}, c.current event = some γ → live.node? event = node γ
  current_inj : ∀ {event other γ}, c.current event = some γ → c.current other = some γ →
    event = other
  current_lt : ∀ {event γ}, c.current event = some γ → γ < c.started
  node_inj : ∀ {γ δ x}, node γ = some x → node δ = some x → γ = δ
  node_lt : ∀ {γ x}, node γ = some x → γ < c.started
  allocated : ∀ {γ x}, node γ = some x → g.contains x = true
  edge_of_wait : ∀ {γ δ}, (γ, δ) ∈ c.waits → ∃ x y, node γ = some x ∧ node δ = some y ∧ g.Edge x y
  wait_of_edge : ∀ {x y}, g.Edge x y →
    ∃ γ, node γ = some x ∧ ∀ δ, node δ = some y → (γ, δ) ∈ c.waits

namespace Tracks

/-- At first there is nothing to keep track of. -/
theorem empty : Tracks .empty .empty {} fun _ => none where
  sound := .empty
  contains _ := rfl
  node? := nofun
  current_inj := nofun
  current_lt := nofun
  node_inj := nofun
  node_lt := nofun
  allocated := nofun
  edge_of_wait := nofun
  wait_of_edge h := absurd h List.not_mem_nil

/-! ## Generations -/

/-- A generation that was not started has no node. -/
theorem node_started (h : Tracks live g c node) : node c.started = none :=
  Option.eq_none_iff_forall_ne_some.2 fun _ hx => Nat.lt_irrefl _ (h.node_lt hx)

/-- A new generation has no node yet; nodes and edges stay. -/
theorem create (h : Tracks live g c node) (event : EventHandle) :
    Tracks (live.create event).2 g (c.create event) node where
  sound := h.sound
  contains other := by
    rw [LiveEvents.create, LiveEvents.contains_bind, Chronicle.current_create, h.contains]
    split <;> rfl
  node? := by
    intro other γ hγ
    rw [Chronicle.current_create] at hγ
    rw [LiveEvents.create, LiveEvents.node?_bind]
    by_cases he : event = other
    · rw [if_pos he] at hγ
      rw [if_pos he, ← Option.some.inj hγ, h.node_started]
      rfl
    · rw [if_neg he] at hγ
      rw [if_neg he, h.node? hγ]
  current_inj := by
    intro other other' γ hγ hγ'
    rw [Chronicle.current_create] at hγ hγ'
    -- The new generation has a number that no older one has.
    have hnew : ∀ e, c.current e ≠ some c.started := fun e he => Nat.lt_irrefl _ (h.current_lt he)
    split at hγ
    · next he =>
      split at hγ'
      · next he' => exact he.symm.trans he'
      · exact absurd (hγ'.trans hγ.symm) (hnew _)
    · split at hγ'
      · exact absurd (hγ.trans hγ'.symm) (hnew _)
      · exact h.current_inj hγ hγ'
  current_lt := by
    intro other γ hγ
    rw [Chronicle.current_create] at hγ
    split at hγ
    · rw [← Option.some.inj hγ]
      exact Nat.lt_succ_self _
    · exact Nat.lt_succ_of_lt (h.current_lt hγ)
  node_inj := h.node_inj
  node_lt hx := Nat.lt_succ_of_lt (h.node_lt hx)
  allocated := h.allocated
  edge_of_wait := h.edge_of_wait
  wait_of_edge := h.wait_of_edge

/-- The nodes and edges of a destroyed event stay. -/
theorem destroy (h : Tracks live g c node) (event : EventHandle) :
    Tracks (live.destroy event).2 g (c.destroy event) node := by
  have hcurrent : ∀ {other γ}, (c.destroy event).current other = some γ →
      event ≠ other ∧ c.current other = some γ := by
    intro other γ hγ
    rw [Chronicle.current_destroy] at hγ
    split at hγ
    · cases hγ
    · next he => exact ⟨he, hγ⟩
  refine { h with contains := ?_, node? := ?_, current_inj := ?_, current_lt := ?_ }
  · intro other
    rw [LiveEvents.contains_destroy, Chronicle.current_destroy, h.contains]
    split <;> rfl
  · intro other γ hγ
    rw [LiveEvents.node?_destroy, if_neg (hcurrent hγ).1, h.node? (hcurrent hγ).2]
  · intro other other' γ hγ hγ'
    exact h.current_inj (hcurrent hγ).2 (hcurrent hγ').2
  · intro other γ hγ
    exact h.current_lt (hcurrent hγ).2

/-- A reset is tracked as the start of a generation. -/
theorem reset (h : Tracks live g c node) (event : EventHandle) :
    Tracks (live.reset event).2 g (c.reset event) node := by
  unfold LiveEvents.reset Chronicle.reset
  rw [h.contains]
  split
  · exact h.create event
  · exact h

/-! ## Chains of waits -/

/-- Between nodes of generations, the edges lead where the waits do. -/
theorem leads_iff (h : Tracks live g c node) (hx : node γ = some x) (hy : node δ = some y) :
    g.Leads x y ↔ Chains c.waits γ δ := by
  constructor
  · intro hxy
    -- The path stays at nodes of generations, since these alone have edges out of them.
    induction hxy using ReflTransGen.head_induction_on generalizing γ with
    | refl => exact h.node_inj hx hy ▸ ReflTransGen.refl
    | @head x z hxz hzy ih =>
      obtain ⟨γ', hγ', hwait⟩ := h.wait_of_edge hxz
      obtain ⟨ε, hz⟩ : ∃ ε, node ε = some z := by
        rcases ReflTransGen.cases_head hzy with rfl | ⟨w, hzw, -⟩
        · exact ⟨δ, hy⟩
        · obtain ⟨ε, hε, -⟩ := h.wait_of_edge hzw
          exact ⟨ε, hε⟩
      exact ReflTransGen.head (h.node_inj hγ' hx ▸ hwait ε hz) (ih hz)
  · intro hγδ
    induction hγδ using ReflTransGen.head_induction_on generalizing x with
    | refl =>
      rw [hx] at hy
      exact Option.some.inj hy ▸ ReflTransGen.refl
    | head hwait _ ih =>
      obtain ⟨x', z, hx', hz, hedge⟩ := h.edge_of_wait hwait
      rw [hx] at hx'
      exact ReflTransGen.head (Option.some.inj hx' ▸ hedge) (ih hz)

/-- A wait is blocked if it is for the signaled event or its node can be reached from that of the
signaled event. -/
theorem blocks_iff (h : Tracks live g c node) {signal event : EventHandle}
    (hs : live.contains signal = true) (he : live.contains event = true) :
    c.Blocks signal event ↔
      event = signal ∨
        ∃ x y, live.node? signal = some x ∧ live.node? event = some y ∧ g.Leads x y := by
  rw [h.contains, Option.isSome_iff_exists] at hs he
  obtain ⟨γ, hγ⟩ := hs
  obtain ⟨δ, hδ⟩ := he
  unfold Chronicle.Blocks
  rw [hγ, hδ, h.node? hγ, h.node? hδ]
  simp only [Option.mem_some, exists_eq_left']
  constructor
  · rintro (rfl | hleads)
    · exact Or.inl rfl
    -- A chain of waits with two ends has nodes at both; one without is from an event to itself.
    · rcases ReflTransGen.cases_head hleads with rfl | ⟨ε, hwait, -⟩
      · exact Or.inl (h.current_inj hδ hγ)
      · rcases ReflTransGen.cases_tail hleads with rfl | ⟨ε', -, hwait'⟩
        · exact Or.inl (h.current_inj hδ hγ)
        · obtain ⟨x, -, hx, -, -⟩ := h.edge_of_wait hwait
          obtain ⟨-, y, -, hy, -⟩ := h.edge_of_wait hwait'
          exact Or.inr ⟨x, y, hx, hy, (h.leads_iff hx hy).2 hleads⟩
  · rintro (rfl | ⟨x, y, hx, hy, hleads⟩)
    · exact Or.inl rfl
    · exact Or.inr ((h.leads_iff hx hy).1 hleads)

/-! ## New nodes and edges -/

/-- A node that stands for no generation may be added. -/
theorem addNode (h : Tracks live g c node) : Tracks live g.addNode.2 c node := by
  have hedge : g.addNode.2.Edge = g.Edge := by
    funext x y
    exact propext Graph.edge_addNode
  refine { h with
    sound := h.sound.addNode, allocated := ?_, edge_of_wait := ?_, wait_of_edge := ?_ }
  · intro γ x hx
    exact Graph.contains_addNode.2 (Or.inl (h.allocated hx))
  · rw [hedge]
    exact h.edge_of_wait
  · rw [hedge]
    exact h.wait_of_edge

/-- The first reference to an event gives its generation a new node. -/
theorem allocate (h : Tracks live g c node) (hγ : c.current event = some γ)
    (hnode : node γ = none) (hcontains : ∀ other, live'.contains other = live.contains other)
    (hlive : ∀ other, live'.node? other =
      if event = other then some g.addNode.1 else live.node? other) :
    Tracks live' g.addNode.2 c (Function.update node γ (some g.addNode.1)) := by
  have hiff : ∀ {δ x}, Function.update node γ (some g.addNode.1) δ = some x ↔
      δ = γ ∧ x = g.addNode.1 ∨ node δ = some x := LiveEvents.update_eq_some_iff hnode
  have hfresh : ∀ {δ}, node δ ≠ some g.addNode.1 := by
    intro δ hδ
    exact absurd (h.allocated hδ) g.not_contains_new
  refine ⟨h.sound.addNode, ?_, ?_, h.current_inj, h.current_lt, ?_, ?_, ?_, ?_, ?_⟩
  · intro other
    rw [hcontains, h.contains]
  · intro other δ hδ
    rw [hlive]
    by_cases he : event = other
    · rw [he, hδ] at hγ
      rw [if_pos he, Option.some.inj hγ, Function.update_self]
    · rw [if_neg he, Function.update_of_ne, h.node? hδ]
      rintro rfl
      exact he (h.current_inj hγ hδ)
  · exact LiveEvents.update_inj h.node_inj hnode hfresh
  · intro δ x hδ
    rcases hiff.1 hδ with ⟨rfl, -⟩ | hδ
    · exact h.current_lt hγ
    · exact h.node_lt hδ
  · intro δ x hδ
    rcases hiff.1 hδ with ⟨-, rfl⟩ | hδ
    · exact Graph.contains_addNode.2 (Or.inr rfl)
    · exact Graph.contains_addNode.2 (Or.inl (h.allocated hδ))
  · intro δ ε hwait
    obtain ⟨x, y, hx, hy, hedge⟩ := h.edge_of_wait hwait
    exact ⟨x, y, hiff.2 (Or.inr hx), hiff.2 (Or.inr hy), Graph.edge_addNode.2 hedge⟩
  · intro x y hedge
    rw [Graph.edge_addNode] at hedge
    obtain ⟨δ, hδ, hwait⟩ := h.wait_of_edge hedge
    refine ⟨δ, hiff.2 (Or.inr hδ), fun ε hε => ?_⟩
    -- No edge goes into a node that was not allocated.
    rcases hiff.1 hε with ⟨-, rfl⟩ | hε
    · exact absurd (h.sound.contains_right hedge) g.not_contains_new
    · exact hwait ε hε

/-- A reference to a live event gives its generation a node, unless it has one; the nodes that were
allocated stand for what they stood for. -/
theorem resolve (h : Tracks live g c node) (hγ : c.current event = some γ)
    (hr : live.Resolves g event x live' g') :
    ∃ node', Tracks live' g' c node' ∧ node' γ = some x ∧
      ∀ y, g.contains y = true →
        g'.contains y = true ∧ ∀ δ, node' δ = some y ↔ node δ = some y := by
  rcases hr.graph with ⟨hx, rfl⟩ | ⟨hx, rfl, rfl⟩
  · refine ⟨node, ?_, (h.node? hγ).symm.trans hx, fun y hy => ⟨hy, fun δ => Iff.rfl⟩⟩
    refine { h with contains := ?_, node? := ?_ }
    · intro other
      rw [hr.contains, h.contains]
    · intro other δ hδ
      rw [hr.node?]
      split
      · next he => rw [← h.node? hδ, ← he, hx]
      · exact h.node? hδ
  · have hnode : node γ = none := (h.node? hγ).symm.trans hx
    refine ⟨_, h.allocate hγ hnode hr.contains hr.node?, Function.update_self .., fun y hy => ?_⟩
    refine ⟨Graph.contains_addNode.2 (Or.inl hy), fun δ => ?_⟩
    rw [LiveEvents.update_eq_some_iff hnode, or_iff_right]
    rintro ⟨-, rfl⟩
    exact absurd hy g.not_contains_new

/-- A new edge out of the node of a generation is a new wait, if its target stands for a
generation. -/
theorem insert {c' : Chronicle EventHandle} (h : Tracks live g c node) (hγ : node γ = some x)
    (hsound : g'.Sound) (hcontains : ∀ z, g'.contains z = g.contains z)
    (hedge : ∀ z w, g'.Edge z w ↔ g.Edge z w ∨ z = x ∧ w = y)
    (hcurrent : c'.current = c.current) (hstarted : c'.started = c.started)
    (hwaits : ∀ α β, (α, β) ∈ c'.waits ↔ (α, β) ∈ c.waits ∨ α = γ ∧ node β = some y) :
    Tracks live g' c' node := by
  refine ⟨hsound, ?_, ?_, ?_, ?_, h.node_inj, ?_, ?_, ?_, ?_⟩
  · rw [hcurrent]
    exact h.contains
  · rw [hcurrent]
    exact h.node?
  · rw [hcurrent]
    exact h.current_inj
  · rw [hcurrent, hstarted]
    exact h.current_lt
  · rw [hstarted]
    exact h.node_lt
  · intro δ z hz
    rw [hcontains]
    exact h.allocated hz
  · intro α β hwait
    rcases (hwaits α β).1 hwait with hwait | ⟨rfl, hβ⟩
    · obtain ⟨z, w, hz, hw, hzw⟩ := h.edge_of_wait hwait
      exact ⟨z, w, hz, hw, (hedge z w).2 (Or.inl hzw)⟩
    · exact ⟨x, y, hγ, hβ, (hedge x y).2 (Or.inr ⟨rfl, rfl⟩)⟩
  · intro z w hzw
    rcases (hedge z w).1 hzw with hzw | ⟨rfl, rfl⟩
    · obtain ⟨α, hα, hwait⟩ := h.wait_of_edge hzw
      exact ⟨α, hα, fun β hβ => (hwaits α β).2 (Or.inl (hwait β hβ))⟩
    · exact ⟨γ, hγ, fun β hβ => (hwaits γ β).2 (Or.inr ⟨rfl, hβ⟩)⟩

end Tracks

end WaitFor
