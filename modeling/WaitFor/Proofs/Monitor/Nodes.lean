import Mathlib.Logic.Function.Basic
import WaitFor.LiveEvents

/-! # The nodes of live events

`LiveEvents.waitNode?` and `LiveEvents.signalNode?` find the node of a live event, or allocate one.
`LiveEvents.Resolves` is what they have in common: who asks for the node makes no difference to the
events and nodes that there are afterwards.
-/

namespace WaitFor.LiveEvents

variable {live live' : LiveEvents} {g g' : Graph} {event other : EventHandle} {node : NodeId}

/-- The node of an event, if it is live and has one. -/
def node? (live : LiveEvents) (event : EventHandle) : Option NodeId :=
  (live.binding? event).bind Binding.node?

/-- The live events are those that have a binding. -/
theorem contains_iff : live.contains event = true ↔ ∃ b, live.binding? event = some b :=
  Option.isSome_iff_exists

theorem not_contains_iff : live.contains event = false ↔ live.binding? event = none := by
  rw [← Option.not_isSome_iff_eq_none, Bool.not_eq_true]
  rfl

/-- An event that is bound has its new binding, and the others keep theirs. -/
theorem binding?_bind (b : Binding) :
    (live.bind event b).binding? other = if event = other then some b else live.binding? other := by
  rw [binding?, bind, Table.get?_insert]
  rfl

theorem binding?_bind_of_ne (h : event ≠ other) (b : Binding) :
    (live.bind event b).binding? other = live.binding? other := by
  rw [binding?_bind, if_neg h]

theorem bind_bind (b b' : Binding) : (live.bind event b).bind event b' = live.bind event b' := by
  rw [bind, bind, Table.insert_insert]
  rfl

theorem bind_destroy (b : Binding) : (live.destroy event).2.bind event b = live.bind event b := by
  rw [bind, destroy, Table.insert_erase]
  rfl

/-- A destroyed event has no binding, and the others keep theirs. -/
theorem binding?_destroy :
    (live.destroy event).2.binding? other =
      if event = other then none else live.binding? other := by
  rw [binding?, destroy, Table.get?_erase]
  rfl

theorem node?_of_binding? {b : Binding} (h : live.binding? event = some b) :
    live.node? event = b.node? := by
  rw [node?, h, Option.bind_some]

/-- An event has a node if it is pending or bound there. -/
theorem node?_eq_some_iff : live.node? event = some node ↔
    live.binding? event = some (.pending node) ∨ live.binding? event = some (.bound node) := by
  rw [node?]
  cases live.binding? event with
  | none => simp
  | some b => cases b <;> simp [Binding.node?]

theorem contains_bind (b : Binding) :
    (live.bind event b).contains other = if event = other then true else live.contains other := by
  simp only [contains, Table.contains, bind, Table.get?_insert]
  split <;> rfl

theorem node?_bind (b : Binding) :
    (live.bind event b).node? other = if event = other then b.node? else live.node? other := by
  simp only [node?, binding?, bind, Table.get?_insert]
  split <;> rfl

theorem contains_destroy :
    (live.destroy event).2.contains other =
      if event = other then false else live.contains other := by
  simp only [contains, Table.contains, destroy, Table.get?_erase]
  split <;> rfl

theorem node?_destroy :
    (live.destroy event).2.node? other = if event = other then none else live.node? other := by
  simp only [node?, binding?, destroy, Table.get?_erase]
  split <;> rfl

/-- Binding an event makes it live. -/
theorem size_bind (live : LiveEvents) (event : EventHandle) (b : Binding) :
    (live.bind event b).size = if live.contains event then live.size else live.size + 1 :=
  live.bindings.size_insert event b

/-- Destroying a live event leaves one less. -/
theorem size_destroy (live : LiveEvents) (event : EventHandle) :
    (live.destroy event).2.size = if live.contains event then live.size - 1 else live.size :=
  live.bindings.size_erase event

/-- Where an event is live there is at least one. -/
theorem size_pos (h : live.contains event = true) : 0 < live.size := by
  have hkeys := List.length_pos_of_mem (Table.mem_keys.2 h)
  rwa [Table.keys, List.length_map] at hkeys

/-! ## Finding or allocating a node -/

/-- The node of a live event is found in `live` and `g`, or allocated, which leads to `live'` and
`g'`. -/
structure Resolves (live : LiveEvents) (g : Graph) (event : EventHandle) (node : NodeId)
    (live' : LiveEvents) (g' : Graph) : Prop where
  contains : ∀ other, live'.contains other = live.contains other
  node? : ∀ other, live'.node? other = if event = other then some node else live.node? other
  graph : live.node? event = some node ∧ g' = g ∨
    live.node? event = none ∧ node = g.addNode.1 ∧ g' = g.addNode.2

/-- An event that has a node keeps it, whatever is recorded about who signals it. -/
theorem Resolves.rebind {b : Binding} (hlive : live.contains event = true)
    (hnode : live.node? event = some node) (hb : b.node? = some node) :
    Resolves live g event node (live.bind event b) g where
  contains other := by
    rw [contains_bind]
    split
    · next h => rw [← h, hlive]
    · rfl
  node? other := by rw [node?_bind, hb]
  graph := Or.inl ⟨hnode, rfl⟩

/-- The node of an event that has one is found as it is. -/
theorem Resolves.found (hnode : live.node? event = some node) :
    Resolves live g event node live g where
  contains _ := rfl
  node? other := by
    split
    · next h => rw [← h, hnode]
    · rfl
  graph := Or.inl ⟨hnode, rfl⟩

/-- An event without a node is given a new one. -/
theorem Resolves.allocate {b : Binding} (hlive : live.contains event = true)
    (hnode : live.node? event = none) (hb : b.node? = some g.addNode.1) :
    Resolves live g event g.addNode.1 (live.bind event b) g.addNode.2 where
  contains other := by
    rw [contains_bind]
    split
    · next h => rw [← h, hlive]
    · rfl
  node? other := by rw [node?_bind, hb]
  graph := Or.inr ⟨hnode, rfl, rfl⟩

/-- A live event has a node to wait for. -/
theorem waitNode?_resolves (hlive : live.contains event = true) :
    ∃ node live' g', live.waitNode? event g = some (node, live', g') ∧
      Resolves live g event node live' g' := by
  obtain ⟨b, hb⟩ := contains_iff.1 hlive
  have hnode := node?_of_binding? hb
  unfold waitNode?
  rw [hb]
  cases b with
  | unassigned => exact ⟨_, _, _, rfl, .allocate hlive hnode rfl⟩
  | pending node => exact ⟨_, _, _, rfl, .found hnode⟩
  | bound node => exact ⟨_, _, _, rfl, .found hnode⟩

/-- A live event has a node for the operation that signals it. -/
theorem signalNode?_resolves (hlive : live.contains event = true) :
    ∃ node claimed live' g', live.signalNode? event g = some (node, claimed, live', g') ∧
      Resolves live g event node live' g' := by
  obtain ⟨b, hb⟩ := contains_iff.1 hlive
  have hnode := node?_of_binding? hb
  unfold signalNode?
  rw [hb]
  cases b with
  | unassigned => exact ⟨_, _, _, _, rfl, .allocate hlive hnode rfl⟩
  | pending node => exact ⟨_, _, _, _, rfl, .rebind hlive hnode rfl⟩
  | bound node => exact ⟨_, _, _, _, rfl, .found hnode⟩

/-- An event that is not live cannot be signaled. -/
theorem signalNode?_eq_none (hlive : live.contains event = false) :
    live.signalNode? event g = none := by
  rw [signalNode?, not_contains_iff.1 hlive]

/-- Only an event that is not live has no node to wait for. -/
theorem waitNode?_eq_none_iff : live.waitNode? event g = none ↔ live.contains event = false := by
  constructor
  · intro hnone
    refine Bool.eq_false_iff.2 fun hlive => ?_
    obtain ⟨node, live', g', hsome, -⟩ := waitNode?_resolves (g := g) hlive
    rw [hnone] at hsome
    cases hsome
  · intro hlive
    rw [waitNode?, not_contains_iff.1 hlive]

/-- Only an event that is not live has no node for an operation that signals it. -/
theorem signalNode?_eq_none_iff :
    live.signalNode? event g = none ↔ live.contains event = false := by
  refine ⟨fun hnone => Bool.eq_false_iff.2 fun hlive => ?_, signalNode?_eq_none⟩
  obtain ⟨node, claimed, live', g', hsome, -⟩ := signalNode?_resolves (g := g) hlive
  rw [hnone] at hsome
  cases hsome

/-! ## What is bound -/

/-- The node to wait for is the one that the event has, or a new one that it is pending at. -/
theorem waitNode?_cases (h : live.waitNode? event g = some (node, live', g')) :
    (live.binding? event = some (.pending node) ∨ live.binding? event = some (.bound node)) ∧
        live' = live ∧ g' = g ∨
      live.binding? event = some .unassigned ∧ node = g.addNode.1 ∧
        live' = live.bind event (.pending node) ∧ g' = g.addNode.2 := by
  rw [waitNode?] at h
  split at h
  · cases h
  · next x hb =>
    cases h
    exact Or.inl ⟨Or.inl hb, rfl, rfl⟩
  · next x hb =>
    cases h
    exact Or.inl ⟨Or.inr hb, rfl, rfl⟩
  · next hb =>
    cases h
    exact Or.inr ⟨hb, rfl, rfl, rfl⟩

/-- A wait finds the node of its event, or makes one. -/
theorem resolves_of_waitNode? (h : live.waitNode? event g = some (node, live', g')) :
    Resolves live g event node live' g' := by
  rcases waitNode?_cases h with ⟨hb, rfl, rfl⟩ | ⟨hb, rfl, rfl, rfl⟩
  · exact .found (node?_eq_some_iff.2 hb)
  · exact .allocate (contains_iff.2 ⟨_, hb⟩) (node?_of_binding? hb) rfl

/-- The event that is signaled is bound at the node, and the operation claims the node unless the
event was bound before. -/
theorem signalNode?_cases {claimed : Bool}
    (h : live.signalNode? event g = some (node, claimed, live', g')) :
    live.binding? event = some (.bound node) ∧ claimed = false ∧ live' = live ∧ g' = g ∨
      claimed = true ∧ live' = live.bind event (.bound node) ∧
        (live.binding? event = some (.pending node) ∧ g' = g ∨
          live.binding? event = some .unassigned ∧ node = g.addNode.1 ∧ g' = g.addNode.2) := by
  rw [signalNode?] at h
  split at h
  · cases h
  · next x hb =>
    cases h
    exact Or.inl ⟨hb, rfl, rfl, rfl⟩
  · next x hb =>
    cases h
    exact Or.inr ⟨rfl, rfl, Or.inl ⟨hb, rfl⟩⟩
  · next hb =>
    cases h
    exact Or.inr ⟨rfl, rfl, Or.inr ⟨hb, rfl, rfl⟩⟩

/-! ## Nodes of generations -/

section Assignment

variable {nodeOf : Nat → Option NodeId} {γ δ ε : Nat} {x y : NodeId}

/-- The generations that have a node once `γ` is given one. -/
theorem update_eq_some_iff (hnode : nodeOf γ = none) :
    Function.update nodeOf γ (some x) δ = some y ↔ δ = γ ∧ y = x ∨ nodeOf δ = some y := by
  by_cases hδ : δ = γ
  · rw [hδ, Function.update_self, hnode, Option.some.injEq, eq_comm]
    simp
  · rw [Function.update_of_ne hδ]
    simp [hδ]

/-- Generations stay apart if one of them is given a node that none has. -/
theorem update_inj (hinj : ∀ {γ δ x}, nodeOf γ = some x → nodeOf δ = some x → γ = δ)
    (hnode : nodeOf γ = none) (hfresh : ∀ {δ}, nodeOf δ ≠ some x)
    (hδ : Function.update nodeOf γ (some x) δ = some y)
    (hε : Function.update nodeOf γ (some x) ε = some y) : δ = ε := by
  rcases (update_eq_some_iff hnode).1 hδ with ⟨rfl, rfl⟩ | hδ'
  · rcases (update_eq_some_iff hnode).1 hε with ⟨rfl, -⟩ | hε'
    · rfl
    · exact absurd hε' hfresh
  · rcases (update_eq_some_iff hnode).1 hε with ⟨rfl, rfl⟩ | hε'
    · exact absurd hδ' hfresh
    · exact hinj hδ' hε'

end Assignment

end WaitFor.LiveEvents
