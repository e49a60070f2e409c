import WaitFor.Proofs.Events.Generations
import WaitFor.Proofs.Graph.Edges
import WaitFor.Proofs.Monitor.Nodes

/-! # Serving requests

`World.serve` answers a request about live events or for a node of the graph beside them, and
`World.after` one request after the other.  `World.Confined` is what holds of every single request:
it leaves the edges alone, and all events but the one that it names.
-/

namespace WaitFor.LiveEvents

/-- What a request is answered: the earlier binding of a created event, if its handle was live, and
the last binding of a destroyed one, if it was live; whether an event that was to be reset is live;
the node to wait for; the node that a signaled event is bound at, and whether this request bound it;
or the node that was allocated. -/
inductive Answer where
  | created (earlier : Option Binding)
  | destroyed (last : Option Binding)
  | reset (known : Bool)
  | waits (node : Option NodeId)
  | signals (claim : Option (NodeId × Bool))
  | allocated (node : NodeId)
deriving DecidableEq, Repr

/-- The node that an answer gives as that of the event asked about. -/
def Answer.node? : Answer → Option NodeId
  | waits node => node
  | signals claim => claim.map Prod.fst
  | _ => none

/-- The event that a request names. -/
def Request.event? : Request → Option EventHandle
  | create event | destroy event | reset event | wait event | signal event => some event
  | allocate => none

/-- Live events, beside the graph that their nodes are in. -/
structure World where
  live : LiveEvents
  graph : Graph
deriving DecidableEq, Repr

/-- Answers a request. -/
def World.serve (world : World) : Request → Answer × World
  | .create event =>
    let (earlier, live) := world.live.create event
    (.created earlier, { world with live })
  | .destroy event =>
    let (last, live) := world.live.destroy event
    (.destroyed last, { world with live })
  | .reset event =>
    let (known, live) := world.live.reset event
    (.reset known, { world with live })
  | .wait event =>
    match world.live.waitNode? event world.graph with
    | none => (.waits none, world)
    | some (node, live, graph) => (.waits (some node), { live, graph })
  | .signal event =>
    match world.live.signalNode? event world.graph with
    | none => (.signals none, world)
    | some (node, claimed, live, graph) => (.signals (some (node, claimed)), { live, graph })
  | .allocate =>
    let (node, graph) := world.graph.addNode
    (.allocated node, { world with graph })

/-- The world when the requests were served. -/
def World.after (world : World) (requests : List Request) : World :=
  requests.foldl (fun world request => (world.serve request).2) world

/-- What the `i`-th request is answered. -/
def World.answer? (world : World) (requests : List Request) (i : Nat) : Option Answer :=
  requests[i]?.map fun request => ((world.after (requests.take i)).serve request).1

/-- The node of an event that the `i`-th request is answered. -/
def World.node? (world : World) (requests : List Request) (i : Nat) : Option NodeId :=
  (world.answer? requests i).bind Answer.node?

variable {world : World} {live : LiveEvents} {requests : List Request} {request : Request}
  {event other : EventHandle} {i : Nat}

/-- A request is about the event whose node it asks for. -/
theorem Request.Asks.event?_eq (h : request.Asks event) : request.event? = some event := by
  rcases h with rfl | rfl
  · rfl
  · rfl

theorem after_concat (world : World) (requests : List Request) (request : Request) :
    world.after (requests ++ [request]) = ((world.after requests).serve request).2 := by
  rw [World.after, List.foldl_append]
  rfl

/-- Earlier answers stay as they are. -/
theorem answer?_concat_of_lt (h : i < requests.length) :
    world.answer? (requests ++ [request]) i = world.answer? requests i := by
  rw [World.answer?, List.getElem?_append_left h, List.take_append_of_le_length h.le]
  rfl

/-- The answer to one more request comes from the state before it. -/
theorem answer?_concat_length (world : World) (requests : List Request) (request : Request) :
    world.answer? (requests ++ [request]) requests.length =
      some ((world.after requests).serve request).1 := by
  rw [World.answer?, List.getElem?_concat_length, List.take_left, Option.map_some]

theorem node?_concat_of_lt (h : i < requests.length) :
    world.node? (requests ++ [request]) i = world.node? requests i := by
  rw [World.node?, answer?_concat_of_lt h]
  rfl

/-- So does the node in that answer. -/
theorem node?_concat_length (world : World) (requests : List Request) (request : Request) :
    world.node? (requests ++ [request]) requests.length =
      ((world.after requests).serve request).1.node? := by
  rw [World.node?, answer?_concat_length]
  rfl

/-! ## One request -/

/-- Whatever is live and in the graph, a request changes nothing but what it is about.  An event
that is not live is not destroyed, reset, waited for or signaled.  The graph is not touched when an
event is created, destroyed or reset, and whatever is asked, no node is removed or changes its place
in the order, and no edge is added or removed.  The events that a request does not name stay bound
as they are. -/
structure World.Confined (world : World) : Prop where
  unknown : ∀ event, world.live.contains event = false →
    world.serve (.destroy event) = (.destroyed none, world) ∧
    world.serve (.reset event) = (.reset false, world) ∧
    world.serve (.wait event) = (.waits none, world) ∧
    world.serve (.signal event) = (.signals none, world)
  graph : ∀ event, (world.serve (.create event)).2.graph = world.graph ∧
    (world.serve (.destroy event)).2.graph = world.graph ∧
    (world.serve (.reset event)).2.graph = world.graph
  binding? : ∀ request other, request.event? ≠ some other →
    (world.serve request).2.live.binding? other = world.live.binding? other
  contains : ∀ request id, world.graph.contains id = true →
    (world.serve request).2.graph.contains id = true
  edges : ∀ request id, (world.serve request).2.graph.edgeCount = world.graph.edgeCount ∧
    (world.serve request).2.graph.successors id = world.graph.successors id ∧
    (world.serve request).2.graph.predecessors id = world.graph.predecessors id
  rank : ∀ request id, world.graph.contains id = true →
    (world.serve request).2.graph.rank id = world.graph.rank id

/-- The graph stays as it is, or has one more node. -/
theorem graph_serve (world : World) (request : Request) :
    (world.serve request).2.graph = world.graph ∨
      (world.serve request).2.graph = world.graph.addNode.2 := by
  rw [World.serve.eq_def]
  cases request with
  | create event => exact Or.inl rfl
  | destroy event => exact Or.inl rfl
  | reset event => exact Or.inl rfl
  | wait event =>
    dsimp only
    split
    · exact Or.inl rfl
    · next h =>
      rcases waitNode?_cases h with ⟨-, -, h⟩ | ⟨-, -, -, h⟩
      · exact Or.inl h
      · exact Or.inr h
  | signal event =>
    dsimp only
    split
    · exact Or.inl rfl
    · next h =>
      rcases signalNode?_cases h with ⟨-, -, -, h⟩ | ⟨-, -, ⟨-, h⟩ | ⟨-, -, h⟩⟩
      · exact Or.inl h
      · exact Or.inl h
      · exact Or.inr h
  | allocate => exact Or.inr rfl

/-- A request binds no event that it does not name. -/
theorem binding?_serve_of_ne (world : World) (h : request.event? ≠ some other) :
    (world.serve request).2.live.binding? other = world.live.binding? other := by
  have hne : ∀ event, request.event? = some event → event ≠ other := by
    rintro event hevent rfl
    exact h hevent
  rw [World.serve.eq_def]
  cases request with
  | create event => exact binding?_bind_of_ne (hne event rfl) _
  | destroy event => exact binding?_destroy.trans (if_neg (hne event rfl))
  | reset event =>
    dsimp only [LiveEvents.reset]
    split
    · exact binding?_bind_of_ne (hne event rfl) _
    · rfl
  | wait event =>
    dsimp only
    split
    · rfl
    · next hnode =>
      rcases waitNode?_cases hnode with ⟨-, rfl, -⟩ | ⟨-, -, rfl, -⟩
      · rfl
      · exact binding?_bind_of_ne (hne event rfl) _
  | signal event =>
    dsimp only
    split
    · rfl
    · next hnode =>
      rcases signalNode?_cases hnode with ⟨-, -, rfl, -⟩ | ⟨-, rfl, -⟩
      · rfl
      · exact binding?_bind_of_ne (hne event rfl) _
  | allocate => rfl

/-- A reset tells whether the event is live. -/
theorem reset_fst (live : LiveEvents) (event : EventHandle) :
    (live.reset event).1 = live.contains event := by
  rw [reset]
  split
  · next hlive => exact hlive.symm
  · next hlive => exact (Bool.eq_false_iff.2 hlive).symm

/-- Nothing is destroyed that is not live. -/
theorem destroy_of_not_contains (h : live.contains event = false) :
    live.destroy event = (none, live) := by
  rw [destroy, not_contains_iff.1 h, Table.erase_of_not_contains h]

/-- Every world confines what a request can change. -/
theorem confined (world : World) : world.Confined where
  unknown event h := by
    refine ⟨?_, ?_, ?_, ?_⟩
    · rw [World.serve, destroy_of_not_contains h]
    · rw [World.serve, reset, h]
      rfl
    · rw [World.serve, waitNode?_eq_none_iff.2 h]
    · rw [World.serve, signalNode?_eq_none h]
  graph _ := ⟨rfl, rfl, rfl⟩
  binding? _ _ h := binding?_serve_of_ne world h
  contains request id h := by
    rcases graph_serve world request with hg | hg
    · rwa [hg]
    · rw [hg]
      exact Graph.contains_addNode.2 (Or.inl h)
  edges request id := by
    rcases graph_serve world request with hg | hg
    · rw [hg]
      exact ⟨rfl, rfl, rfl⟩
    · rw [hg]
      exact ⟨Graph.edgeCount_addNode _, Graph.successors_addNode _ _,
        Graph.predecessors_addNode _ _⟩
  rank request id h := by
    rcases graph_serve world request with hg | hg
    · rw [hg]
    · rw [hg]
      exact Graph.rank_addNode_of_contains h

end WaitFor.LiveEvents
