import WaitFor.Proofs.Events.Allotment

/-! # Bindings follow the history

The requests that were served determine which events are live, how each is bound, and which of the
nodes that were answered are the same: `bindings_follow_history`.  `Follows` is what the induction
carries, and `Follows.concat` its step.
-/

namespace WaitFor.LiveEvents

variable {world : World} {requests : List Request} {request : Request} {event : EventHandle}
  {start i : Nat} {x : NodeId} {node : Nat → Option NodeId}

/-! ## Runs -/

/-- The live events, the graph and the answers are what the generations and their nodes make them.
-/
structure Follows (world : World) (requests : List Request) (node : Nat → Option NodeId) :
    Prop where
  placed : ∀ event, Placed requests (world.after requests).live node event
  allotted : Allotted world.graph requests (world.after requests).graph node
  answered : Answered world requests node

/-- At first no event is live. -/
theorem Follows.nil (g : Graph) : Follows ⟨.empty, g⟩ [] fun _ => none where
  placed _ := .of_not_known rfl nofun
  allotted := .nil g
  answered := ⟨fun h => absurd h.lt_length (Nat.not_lt_zero _),
    fun h => absurd h.lt_length (Nat.not_lt_zero _), nofun⟩

/-- A request that asks for no node leaves every generation with the node that it has. -/
theorem Follows.concat_of_silent (h : Follows world requests node)
    (hsilent : Silent requests request)
    (hplaced : ∀ event, request.event? = some event →
      Placed (requests ++ [request]) ((world.after requests).serve request).2.live node event)
    (hallotted : Allotted world.graph (requests ++ [request])
      ((world.after requests).serve request).2.graph node) :
    Follows world (requests ++ [request]) node where
  placed event := by
    rw [after_concat]
    by_cases hevent : request.event? = some event
    · exact hplaced event hevent
    · exact (h.placed event).concat_of_ne hevent fun _ => rfl
  allotted := by
    rw [after_concat]
    exact hallotted
  answered := by
    refine h.answered.concat ⟨fun hrequest hgen => ?_, fun hrequest hgen => ?_, fun _ => ?_⟩
      (fun _ _ => rfl) Or.inl
    · exact absurd hrequest (hsilent _ _ hgen)
    · exact absurd (Or.inr hrequest) (hsilent _ _ hgen)
    · exact h.allotted.contains

/-- An allocation changes no binding. -/
theorem Follows.concat_allocate (h : Follows world requests node) :
    Follows world (requests ++ [.allocate]) node :=
  h.concat_of_silent silent_allocate nofun h.allotted.concat_allocate

/-- A request about events that leaves the graph alone need be looked at for the event that it names
only. -/
theorem Follows.concat_of_graph (h : Follows world requests node)
    (hsilent : Silent requests request) (hevent : request.event? = some event)
    (hgraph : ((world.after requests).serve request).2.graph = (world.after requests).graph)
    (hplaced :
      Placed (requests ++ [request]) ((world.after requests).serve request).2.live node event) :
    Follows world (requests ++ [request]) node := by
  refine h.concat_of_silent hsilent (fun other hother => ?_) ?_
  · obtain rfl := Option.some.inj (hevent.symm.trans hother)
    exact hplaced
  · rw [hgraph]
    refine h.allotted.concat_of_silent hsilent ?_
    rintro rfl
    cases hevent

/-- What was not created last is not live. -/
theorem Follows.contains_eq_false (h : Follows world requests node)
    (hknown : ¬ Known requests event) : (world.after requests).live.contains event = false :=
  Bool.eq_false_iff.2 fun hlive => hknown ((h.placed event).contains.1 hlive)

/-- A creation begins a generation. -/
theorem Follows.concat_create (h : Follows world requests node) :
    Follows world (requests ++ [.create event]) node := by
  have hsilent : Silent requests (.create event) := silent_of_not_asks fun _ h => h.ne_create rfl
  refine h.concat_of_graph hsilent rfl rfl (.of_renews (Or.inl rfl) ?_ h.allotted.node_length)
  exact (binding?_bind _).trans (if_pos rfl)

/-- A destruction ends the generation of its event. -/
theorem Follows.concat_destroy (h : Follows world requests node) :
    Follows world (requests ++ [.destroy event]) node := by
  have hsilent : Silent requests (.destroy event) := silent_of_not_asks fun _ h => h.ne_destroy rfl
  refine h.concat_of_graph hsilent rfl rfl (.of_not_known ?_ not_known_concat_destroy)
  exact contains_destroy.trans (if_pos rfl)

/-- A reset begins a generation, if its event is live. -/
theorem Follows.concat_reset (h : Follows world requests node) :
    Follows world (requests ++ [.reset event]) node := by
  have hsilent : Silent requests (.reset event) := silent_of_not_asks fun _ h => h.ne_reset rfl
  refine h.concat_of_graph hsilent rfl rfl ?_
  rw [World.serve, reset]
  by_cases hknown : Known requests event
  · rw [if_pos ((h.placed event).contains.2 hknown)]
    refine .of_renews (Or.inr ⟨rfl, hknown⟩) ?_ h.allotted.node_length
    exact (binding?_bind _).trans (if_pos rfl)
  · have hlive := h.contains_eq_false hknown
    rw [if_neg (ne_true_of_eq_false hlive)]
    refine .of_not_known hlive ?_
    rwa [known_concat_of_ne (by simp) (by simp)]

/-- There is no node of an event that is not known to ask for. -/
theorem Follows.concat_of_not_known (h : Follows world requests node)
    (hknown : ¬ Known requests event) (hasks : request.Asks event) :
    Follows world (requests ++ [request]) node := by
  have hlive := h.contains_eq_false hknown
  have hserve : ((world.after requests).serve request).2 = world.after requests := by
    obtain ⟨-, -, hwait, hsignal⟩ := (confined (world.after requests)).unknown event hlive
    rcases hasks with rfl | rfl
    · rw [hwait]
    · rw [hsignal]
  have hsilent : Silent requests request := by
    intro other start hgen hother
    exact hknown (hasks.eq hother ▸ hgen.known)
  refine h.concat_of_graph hsilent hasks.event?_eq (by rw [hserve])
    (.of_not_known (by rwa [hserve]) ?_)
  rwa [known_concat_of_ne hasks.ne_create hasks.ne_destroy]

/-- There is a node of every event that is known. -/
theorem Follows.concat_of_generation {answer : Answer} {live' : LiveEvents} {graph' : Graph}
    (h : Follows world requests node) (hgen : Generation requests event start)
    (hasks : request.Asks event)
    (hserve : (world.after requests).serve request = (answer, ⟨live', graph'⟩))
    (hresolves :
      Resolves (world.after requests).live (world.after requests).graph event x live' graph')
    (hnode : answer.node? = some x)
    (hbound : (∃ y, live'.binding? event = some (.bound y)) ↔
      ∃ i, Refers .signal (requests ++ [request]) event start i)
    (hclaimed : request = .signal event → ∃ claimed, answer = .signals (some (x, claimed)) ∧
      (claimed = true ↔ ∀ i, ¬ Refers .signal requests event start i)) :
    Follows world (requests ++ [request]) (Function.update node start (some x)) := by
  have hgraph := hresolves.graph
  rw [(h.placed event).node? hgen] at hgraph
  constructor
  · intro other
    rw [after_concat]
    by_cases hother : event = other
    · subst hother
      rw [hserve]
      exact (h.placed event).of_resolves hgen hasks hresolves hbound
    · refine (h.placed other).concat_of_ne ?_ fun {start'} hgen' => ?_
      · rw [hasks.event?_eq]
        exact fun heq => hother (Option.some.inj heq)
      · refine Function.update_of_ne (fun heq => hother ?_) _ _
        exact hgen.opens.eq (heq ▸ hgen'.opens)
  · rw [after_concat, hserve]
    exact h.allotted.concat_of_generation hgen hasks hgraph
  · refine h.answered.concat ⟨fun hasks' hgen' => ?_, fun hsignal hgen' => ?_, fun hrequest => ?_⟩
      (fun s hs => ?_) fun {s y} hy => ?_
    · obtain rfl := hasks.eq hasks'
      obtain rfl := hgen.start_unique hgen'
      rw [hserve, hnode, Function.update_self]
    · obtain rfl := hasks.eq (Or.inr hsignal)
      obtain rfl := hgen.start_unique hgen'
      rw [hserve]
      exact ⟨x, hclaimed hsignal⟩
    · exact absurd hrequest hasks.ne_allocate
    · exact h.allotted.update_of_mem_used (hgraph.imp And.left And.left) hs
    · rcases hgraph with ⟨hx, -⟩ | ⟨hnone, rfl, -⟩
      · rw [← hx, Function.update_eq_self] at hy
        exact Or.inl hy
      · rcases (update_eq_some_iff hnone).1 hy with ⟨-, rfl⟩ | hold
        · exact Or.inr (Bool.eq_false_iff.2 (Graph.not_contains_new _))
        · exact Or.inl hold

/-- A wait on a live event leaves it with a node. -/
theorem Follows.concat_wait (h : Follows world requests node)
    (hgen : Generation requests event start) :
    ∃ node', Follows world (requests ++ [.wait event]) node' := by
  have hplaced := h.placed event
  obtain ⟨x, live', graph', hwait, hresolves⟩ :=
    waitNode?_resolves (g := (world.after requests).graph) (hplaced.contains.2 hgen.known)
  have hserve : (world.after requests).serve (.wait event) =
      (.waits (some x), ⟨live', graph'⟩) := by
    rw [World.serve, hwait]
  refine ⟨_, h.concat_of_generation hgen (Or.inl rfl) hserve hresolves rfl ?_ (by simp)⟩
  rw [bound_iff_of_waitNode? hwait, hplaced.bound hgen]
  refine exists_congr fun i => (refers_concat_of_ne ?_).symm
  simp

/-- A signal of a live event leaves it bound. -/
theorem Follows.concat_signal (h : Follows world requests node)
    (hgen : Generation requests event start) :
    ∃ node', Follows world (requests ++ [.signal event]) node' := by
  have hplaced := h.placed event
  obtain ⟨x, claimed, live', graph', hsignal, hresolves⟩ :=
    signalNode?_resolves (g := (world.after requests).graph) (hplaced.contains.2 hgen.known)
  have hserve : (world.after requests).serve (.signal event) =
      (.signals (some (x, claimed)), ⟨live', graph'⟩) := by
    rw [World.serve, hsignal]
  refine ⟨_, h.concat_of_generation hgen (Or.inr rfl) hserve hresolves rfl ?_ fun _ => ?_⟩
  · exact iff_of_true ⟨x, bound_of_signalNode? hsignal⟩
      ⟨_, refers_concat_iff.2 (Or.inr ⟨rfl, rfl, hgen⟩)⟩
  · refine ⟨claimed, rfl, ?_⟩
    rw [claimed_iff_of_signalNode? hsignal, hplaced.bound hgen, not_exists]

/-- The next request finds or makes every generation a node of its own. -/
theorem Follows.concat (h : Follows world requests node) (request : Request) :
    ∃ node', Follows world (requests ++ [request]) node' := by
  cases request with
  | create event => exact ⟨node, h.concat_create⟩
  | destroy event => exact ⟨node, h.concat_destroy⟩
  | reset event => exact ⟨node, h.concat_reset⟩
  | wait event =>
    by_cases hknown : Known requests event
    · obtain ⟨start, hgen⟩ := exists_generation hknown
      exact h.concat_wait hgen
    · exact ⟨node, h.concat_of_not_known hknown (Or.inl rfl)⟩
  | signal event =>
    by_cases hknown : Known requests event
    · obtain ⟨start, hgen⟩ := exists_generation hknown
      exact h.concat_signal hgen
    · exact ⟨node, h.concat_of_not_known hknown (Or.inr rfl)⟩
  | allocate => exact ⟨node, h.concat_allocate⟩

/-- Some allotment of nodes to generations tells of any requests. -/
theorem exists_follows (g : Graph) (requests : List Request) :
    ∃ node, Follows ⟨.empty, g⟩ requests node := by
  induction requests using List.reverseRecOn with
  | nil => exact ⟨_, .nil g⟩
  | append_singleton requests request ih =>
    obtain ⟨node, h⟩ := ih
    exact h.concat request

/-! ## What is bound, and at which node -/

/-- A live event has the node that was answered in its generation. -/
theorem Follows.node?_eq (h : Follows world requests node) (hgen : Generation requests event start)
    (hi : Resolved requests event start i) :
    (world.after requests).live.node? event = world.node? requests i :=
  ((h.placed event).node? hgen).trans (h.answered.node? hi).symm

/-- A reset succeeds if the event is known. -/
theorem Follows.answer?_reset (h : Follows world (requests.take i) node)
    (hi : requests[i]? = some (.reset event)) :
    world.answer? requests i = some (.reset (decide (Known (requests.take i) event))) := by
  have hlive : (world.after (requests.take i)).live.contains event =
      decide (Known (requests.take i) event) :=
    Bool.eq_iff_iff.2 ((h.placed event).contains.trans decide_eq_true_iff.symm)
  rw [World.answer?, hi, Option.map_some, ← hlive, ← reset_fst]
  rfl

/-- The node that was answered is that of the generation. -/
theorem Follows.exists_node (h : Follows world requests node)
    (hi : Resolved requests event start i) :
    ∃ x, node start = some x ∧ world.node? requests i = some x := by
  obtain ⟨x, hx⟩ := h.allotted.used.2 ⟨event, i, hi⟩
  exact ⟨x, hx, (h.answered.node? hi).trans hx⟩

/-- A live event is unassigned if nobody asked for its node in its generation. -/
theorem Follows.unassigned_iff (h : Follows world requests node)
    (hgen : Generation requests event start) :
    (world.after requests).live.binding? event = some .unassigned ↔
      ∀ i, ¬ Resolved requests event start i := by
  obtain ⟨b, hb⟩ := contains_iff.1 ((h.placed event).contains.2 hgen.known)
  rw [← not_exists, ← hgen.mem_used_iff, ← h.allotted.used, ← (h.placed event).node? hgen,
    node?_of_binding? hb, hb]
  cases b with
  | unassigned => simp [Binding.node?]
  | pending x => simp [Binding.node?]
  | bound x => simp [Binding.node?]

/-- A live event is pending if somebody waited on it in its generation and nobody signaled it. -/
theorem Follows.pending_iff (h : Follows world requests node)
    (hgen : Generation requests event start) :
    (∃ x, (world.after requests).live.binding? event = some (.pending x)) ↔
      (∃ i, Refers .wait requests event start i) ∧
        ∀ i, ¬ Refers .signal requests event start i := by
  have hrest : (∃ x, (world.after requests).live.binding? event = some (.pending x)) ↔
      ¬ (world.after requests).live.binding? event = some .unassigned ∧
        ¬ ∃ x, (world.after requests).live.binding? event = some (.bound x) := by
    obtain ⟨b, hb⟩ := contains_iff.1 ((h.placed event).contains.2 hgen.known)
    rw [hb]
    cases b with
    | unassigned => simp
    | pending x => simp
    | bound x => simp
  rw [hrest, h.unassigned_iff hgen, (h.placed event).bound hgen, not_exists]
  refine and_congr_left fun hsignal => ?_
  rw [not_forall_not]
  exact exists_congr fun i => or_iff_left (hsignal i)

/-- Two answers give the same node exactly if they are about one generation of one event. -/
theorem Follows.node?_eq_iff {event' : EventHandle} {start' j : Nat}
    (h : Follows world requests node)
    (hi : Resolved requests event start i) (hj : Resolved requests event' start' j) :
    world.node? requests i = world.node? requests j ↔ event = event' ∧ start = start' := by
  obtain ⟨x, hx, hix⟩ := h.exists_node hi
  obtain ⟨y, hy, hjy⟩ := h.exists_node hj
  rw [hix, hjy]
  constructor
  · rintro ⟨⟩
    obtain rfl := h.allotted.inj hx hy
    exact ⟨hi.opens.eq hj.opens, rfl⟩
  · rintro ⟨-, rfl⟩
    exact hx.symm.trans hy

/-- What the requests that were served say about the live events, the graph and the answers.  An
event is live if, of the requests to create and to destroy it, the last is to create it; the live
events have a generation each, and the resets that begin one are those that succeed.  A live event
is unassigned if nobody asked for its node in its generation, pending if somebody waited on it and
nobody signaled it, and else bound, always at the node that was answered.

Whoever asked for the node of a live event was answered one that was not there at first, the same as
another exactly if both asked in one generation of one event, and none that was allocated for
itself. The first to signal an event in a generation binds it.  There is one more node for each that
was allocated for itself, and for each generation in which the node of the event was asked for. -/
structure World.FollowsHistory (world : World) (requests : List Request) : Prop where
  contains : ∀ event, (world.after requests).live.contains event = true ↔ Known requests event
  generation : ∀ event, Known requests event ↔ ∃! start, Generation requests event start
  reset : ∀ event i, requests[i]? = some (.reset event) →
    world.answer? requests i = some (.reset (decide (Known (requests.take i) event)))
  unassigned : ∀ event start, Generation requests event start →
    ((world.after requests).live.binding? event = some .unassigned ↔
      ∀ i, ¬ Resolved requests event start i)
  pending : ∀ event start, Generation requests event start →
    ((∃ x, (world.after requests).live.binding? event = some (.pending x)) ↔
      (∃ i, Refers .wait requests event start i) ∧ ∀ i, ¬ Refers .signal requests event start i)
  bound : ∀ event start, Generation requests event start →
    ((∃ x, (world.after requests).live.binding? event = some (.bound x)) ↔
      ∃ i, Refers .signal requests event start i)
  node? : ∀ event start i, Generation requests event start → Resolved requests event start i →
    (world.after requests).live.node? event = world.node? requests i
  answered : ∀ event start i, Resolved requests event start i → ∃ x,
    world.node? requests i = some x ∧ world.graph.contains x = false ∧
      (world.after requests).graph.contains x = true
  same : ∀ event event' start start' i j, Resolved requests event start i →
    Resolved requests event' start' j →
    (world.node? requests i = world.node? requests j ↔ event = event' ∧ start = start')
  direct : ∀ i, requests[i]? = some .allocate → ∃ x,
    world.answer? requests i = some (.allocated x) ∧
      ∀ event start j, Resolved requests event start j → world.node? requests j ≠ some x
  claimed : ∀ event start i, Refers .signal requests event start i → ∃ x claimed,
    world.answer? requests i = some (.signals (some (x, claimed))) ∧
      (claimed = true ↔ ∀ j < i, ¬ Refers .signal requests event start j)
  nodeCount : (world.after requests).graph.nodeCount =
    world.graph.nodeCount + requests.count .allocate + (Used requests).ncard

/-- Live events are bound as the history of requests says, and every request is confined to what it
is about. -/
theorem bindings_follow_history :
    (∀ (g : Graph) (requests : List Request), (World.mk .empty g).FollowsHistory requests) ∧
      ∀ world : World, world.Confined := by
  refine ⟨fun g requests => ?_, confined⟩
  obtain ⟨node, h⟩ := exists_follows g requests
  constructor
  · exact fun event => (h.placed event).contains
  · intro event
    constructor
    · intro hknown
      obtain ⟨start, hgen⟩ := exists_generation hknown
      exact ⟨start, hgen, fun start' hgen' => hgen'.start_unique hgen⟩
    · rintro ⟨start, hgen, -⟩
      exact hgen.known
  · intro event i hi
    obtain ⟨node, hbefore⟩ := exists_follows g (requests.take i)
    exact hbefore.answer?_reset hi
  · exact fun event start hgen => h.unassigned_iff hgen
  · exact fun event start hgen => h.pending_iff hgen
  · exact fun event start hgen => (h.placed event).bound hgen
  · exact fun event start i hgen hi => h.node?_eq hgen hi
  · intro event start i hi
    obtain ⟨x, hx, hanswer⟩ := h.exists_node hi
    exact ⟨x, hanswer, h.allotted.outside hx, h.allotted.contains hx⟩
  · exact fun event event' start start' i j hi hj => h.node?_eq_iff hi hj
  · intro i hi
    obtain ⟨x, hanswer, -, hother⟩ := h.answered.direct hi
    refine ⟨x, hanswer, fun event start j hj => ?_⟩
    rw [h.answered.node? hj]
    exact hother start
  · exact fun event start i hi => h.answered.claimed hi
  · exact h.allotted.nodeCount

/-- The node that an operation waits for is the one that the operation to signal the event claims;
after a reset it is another. -/
theorem bindings_follow_history_of_reset :
    let requests : List Request :=
      [.create ⟨1⟩, .wait ⟨1⟩, .allocate, .signal ⟨1⟩, .reset ⟨1⟩, .signal ⟨1⟩]
    let world := World.mk .empty .empty
    Resolved requests ⟨1⟩ 0 1 ∧ Resolved requests ⟨1⟩ 0 3 ∧ Resolved requests ⟨1⟩ 4 5 ∧
      world.node? requests 1 = world.node? requests 3 ∧
      world.node? requests 1 ≠ world.node? requests 5 := by
  intro requests world
  have hwait : Resolved requests ⟨1⟩ 0 1 := by decide
  have hsignal : Resolved requests ⟨1⟩ 0 3 := by decide
  have hreset : Resolved requests ⟨1⟩ 4 5 := by decide
  obtain ⟨hfollows, -⟩ := bindings_follow_history
  have hsame := (hfollows .empty requests).same ⟨1⟩ ⟨1⟩
  refine ⟨hwait, hsignal, hreset, (hsame 0 0 1 3 hwait hsignal).2 ⟨rfl, rfl⟩, fun heq => ?_⟩
  obtain ⟨-, hstart⟩ := (hsame 0 4 1 5 hwait hreset).1 heq
  cases hstart

end WaitFor.LiveEvents
