import Mathlib.Data.Set.Card
import WaitFor.Proofs.Events.Serving

/-! # Generations and their nodes

An induction over the requests that are served keeps in mind which node each generation has, also of
those that are over.  `Placed` relates the generation under way of an event to the live events,
`Allotted` all generations to the graph, and `Answered` all of them to the answers.  The lemmas say
what each looks like after one more request.
-/

namespace WaitFor.LiveEvents

variable {world : World} {g graph graph' : Graph} {live live' : LiveEvents}
  {requests : List Request} {request : Request} {event other : EventHandle} {start i : Nat}
  {x : NodeId} {node node' : Nat → Option NodeId}

/-! ## Bound events -/

/-- Who waits binds no event. -/
theorem bound_iff_of_waitNode? (h : live.waitNode? event graph = some (x, live', graph')) :
    (∃ y, live'.binding? other = some (.bound y)) ↔ ∃ y, live.binding? other = some (.bound y) := by
  rcases waitNode?_cases h with ⟨-, rfl, -⟩ | ⟨hb, -, rfl, -⟩
  · exact Iff.rfl
  · rw [binding?_bind]
    split
    · next heq =>
      subst heq
      simp [hb]
    · exact Iff.rfl

/-- A signal leaves its event bound at the node that it was given. -/
theorem bound_of_signalNode? {claimed : Bool}
    (h : live.signalNode? event graph = some (x, claimed, live', graph')) :
    live'.binding? event = some (.bound x) := by
  rcases signalNode?_cases h with ⟨hb, -, rfl, -⟩ | ⟨-, rfl, -⟩
  · exact hb
  · rw [binding?_bind, if_pos rfl]

/-- Who signals claims the node unless the event was bound. -/
theorem claimed_iff_of_signalNode? {claimed : Bool}
    (h : live.signalNode? event graph = some (x, claimed, live', graph')) :
    claimed = true ↔ ¬ ∃ y, live.binding? event = some (.bound y) := by
  rcases signalNode?_cases h with ⟨hb, rfl, -⟩ | ⟨rfl, -, ⟨hb, -⟩ | ⟨hb, -⟩⟩
  · simp [hb]
  · simp [hb]
  · simp [hb]

/-! ## The generation under way -/

/-- The event is live if it is known, with the node of the generation under way, and bound if it was
signaled in it. -/
structure Placed (requests : List Request) (live : LiveEvents) (node : Nat → Option NodeId)
    (event : EventHandle) : Prop where
  contains : live.contains event = true ↔ Known requests event
  node? : ∀ {start}, Generation requests event start → live.node? event = node start
  bound : ∀ {start}, Generation requests event start →
    ((∃ x, live.binding? event = some (.bound x)) ↔ ∃ i, Refers .signal requests event start i)

/-- An event that is not live has no place. -/
theorem Placed.of_not_known (hlive : live.contains event = false)
    (hknown : ¬ Known requests event) : Placed requests live node event where
  contains := by
    rw [hlive]
    exact iff_of_false Bool.false_ne_true hknown
  node? hgen := absurd hgen.known hknown
  bound hgen := absurd hgen.known hknown

/-- A generation that begins has no node. -/
theorem Placed.of_renews (hrenews : Renews requests request event)
    (hlive : live.binding? event = some .unassigned) (hnode : node requests.length = none) :
    Placed (requests ++ [request]) live node event where
  contains := by
    have hgen := (generation_concat_of_renews hrenews).2 rfl
    exact iff_of_true (contains_iff.2 ⟨_, hlive⟩) hgen.known
  node? hgen := by
    obtain rfl := (generation_concat_of_renews hrenews).1 hgen
    rw [node?_of_binding? hlive, hnode]
    rfl
  bound hgen := by
    obtain rfl := (generation_concat_of_renews hrenews).1 hgen
    rw [hlive]
    refine iff_of_false (by rintro ⟨x, ⟨⟩⟩) ?_
    rintro ⟨i, hi⟩
    have hlt := hi.lt_length
    rw [List.length_append, List.length_singleton] at hlt
    exact absurd hi.start_lt (Nat.not_lt.2 (Nat.le_of_lt_succ hlt))

/-- A request that does not name the event does not move it. -/
theorem Placed.concat_of_ne (h : Placed requests world.live node event)
    (hne : request.event? ≠ some event)
    (hnode : ∀ {start}, Generation requests event start → node' start = node start) :
    Placed (requests ++ [request]) (world.serve request).2.live node' event := by
  have hbinding := binding?_serve_of_ne world hne
  have hcreate : request ≠ .create event := by
    rintro rfl
    exact hne rfl
  have hdestroy : request ≠ .destroy event := by
    rintro rfl
    exact hne rfl
  have hrenews : ¬ Renews requests request event := by
    rintro (rfl | ⟨rfl, -⟩)
    · exact hne rfl
    · exact hne rfl
  have hgen : ∀ {start}, Generation (requests ++ [request]) event start →
      Generation requests event start := (generation_concat_of_not_renews hrenews hdestroy).1
  constructor
  · rw [contains_iff, hbinding, ← contains_iff, known_concat_of_ne hcreate hdestroy]
    exact h.contains
  · intro start hstart
    rw [LiveEvents.node?, hbinding, hnode (hgen hstart)]
    exact h.node? (hgen hstart)
  · intro start hstart
    rw [hbinding, h.bound (hgen hstart)]
    refine exists_congr fun i => (refers_concat_of_ne fun _ => ?_).symm
    rintro rfl
    exact hne rfl

/-- Who asks for the node of a live event leaves it with the node that the generation has, or is
given now. -/
theorem Placed.of_resolves (h : Placed requests live node event)
    (hgen : Generation requests event start) (hasks : request.Asks event)
    (hresolves : Resolves live graph event x live' graph')
    (hbound : (∃ y, live'.binding? event = some (.bound y)) ↔
      ∃ i, Refers .signal (requests ++ [request]) event start i) :
    Placed (requests ++ [request]) live' (Function.update node start (some x)) event := by
  have hiff : ∀ {start}, Generation (requests ++ [request]) event start ↔
      Generation requests event start :=
    generation_concat_of_not_renews hasks.not_renews hasks.ne_destroy
  constructor
  · rw [hresolves.contains, h.contains]
    exact iff_of_true hgen.known (hiff.2 hgen).known
  · intro start' hgen'
    obtain rfl := hgen.start_unique (hiff.1 hgen')
    rw [hresolves.node?, if_pos rfl, Function.update_self]
  · intro start' hgen'
    obtain rfl := hgen.start_unique (hiff.1 hgen')
    exact hbound

/-! ## Generations and their nodes -/

/-- Distinct generations have distinct nodes of the graph, which `g` has not, and every other node
is one of `g` or allocated for itself. -/
structure Allotted (g : Graph) (requests : List Request) (graph : Graph)
    (node : Nat → Option NodeId) : Prop where
  used : ∀ {start}, (∃ x, node start = some x) ↔ start ∈ Used requests
  inj : ∀ {start start' x}, node start = some x → node start' = some x → start = start'
  contains : ∀ {start x}, node start = some x → graph.contains x = true
  outside : ∀ {start x}, node start = some x → g.contains x = false
  nodeCount : graph.nodeCount = g.nodeCount + requests.count .allocate + (Used requests).ncard

/-- Before any request no node was allotted. -/
theorem Allotted.nil (g : Graph) : Allotted g [] g fun _ => none where
  used := by simp
  inj := nofun
  contains := nofun
  outside := nofun
  nodeCount := by simp

/-- A generation that is still to begin has no node. -/
theorem Allotted.node_length (h : Allotted g requests graph node) :
    node requests.length = none := by
  refine Option.eq_none_iff_forall_ne_some.2 fun x hx => ?_
  exact absurd (lt_length_of_mem_used (h.used.1 ⟨x, hx⟩)) (Nat.lt_irrefl _)

/-- The next node was not there at first. -/
theorem Allotted.not_contains_new (h : Allotted g requests graph node) :
    g.contains graph.addNode.1 = false := by
  rw [← Bool.not_eq_true, Graph.contains_iff]
  have hcount := h.nodeCount
  simp only [Graph.addNode_fst]
  omega

/-- Only an allocation allocates a node for itself. -/
theorem count_allocate_concat (requests : List Request) (h : request ≠ .allocate) :
    (requests ++ [request]).count .allocate = requests.count .allocate := by
  rw [List.count_append, List.count_singleton, if_neg (by simpa using h), Nat.add_zero]

/-- A request that asks for no node of an event gives none. -/
theorem Allotted.concat_of_silent (h : Allotted g requests graph node)
    (hsilent : Silent requests request) (hrequest : request ≠ .allocate) :
    Allotted g (requests ++ [request]) graph node where
  used := by
    rw [hsilent.used_concat]
    exact h.used
  inj := h.inj
  contains := h.contains
  outside := h.outside
  nodeCount := by
    rw [hsilent.used_concat, count_allocate_concat requests hrequest]
    exact h.nodeCount

/-- An allocation asks for no node of an event. -/
theorem silent_allocate : Silent requests .allocate :=
  silent_of_not_asks fun _ h => h.ne_allocate rfl

/-- A node that is allocated for itself goes to no generation. -/
theorem Allotted.concat_allocate (h : Allotted g requests graph node) :
    Allotted g (requests ++ [.allocate]) graph.addNode.2 node where
  used := by
    rw [silent_allocate.used_concat]
    exact h.used
  inj := h.inj
  contains hx := Graph.contains_addNode.2 (Or.inl (h.contains hx))
  outside := h.outside
  nodeCount := by
    rw [silent_allocate.used_concat, Graph.nodeCount_addNode, h.nodeCount, List.count_append,
      List.count_singleton_self]
    omega

/-- Who asks for the node of an event is given the one that its generation has, or the next node of
the graph. -/
theorem Allotted.concat_of_generation (h : Allotted g requests graph node)
    (hgen : Generation requests event start) (hasks : request.Asks event)
    (hgraph : node start = some x ∧ graph' = graph ∨
      node start = none ∧ x = graph.addNode.1 ∧ graph' = graph.addNode.2) :
    Allotted g (requests ++ [request]) graph' (Function.update node start (some x)) := by
  have hused := used_concat_of_generation hasks hgen
  have hcount := count_allocate_concat requests hasks.ne_allocate
  rcases hgraph with ⟨hx, rfl⟩ | ⟨hnone, rfl, rfl⟩
  · rw [Set.insert_eq_of_mem (h.used.1 ⟨x, hx⟩)] at hused
    rw [← hx, Function.update_eq_self]
    refine ⟨?_, h.inj, h.contains, h.outside, ?_⟩
    · rw [hused]
      exact h.used
    · rw [hused, hcount]
      exact h.nodeCount
  · have hmem : start ∉ Used requests := by
      rw [← h.used, hnone]
      rintro ⟨x, ⟨⟩⟩
    have hnew : ∀ {s}, node s ≠ some graph.addNode.1 :=
      fun hs => graph.not_contains_new (h.contains hs)
    have hupdate : ∀ {s y}, Function.update node start (some graph.addNode.1) s = some y ↔
        s = start ∧ y = graph.addNode.1 ∨ node s = some y := update_eq_some_iff hnone
    constructor
    · intro s
      rw [hused, Set.mem_insert_iff, ← h.used]
      simp only [hupdate, exists_or, exists_and_left, exists_eq, and_true]
    · exact update_inj h.inj hnone hnew
    · intro s y hs
      rcases hupdate.1 hs with ⟨-, rfl⟩ | hs
      · exact Graph.contains_addNode.2 (Or.inr rfl)
      · exact Graph.contains_addNode.2 (Or.inl (h.contains hs))
    · intro s y hs
      rcases hupdate.1 hs with ⟨-, rfl⟩ | hs
      · exact h.not_contains_new
      · exact h.outside hs
    · rw [hused, hcount, Set.ncard_insert_of_notMem hmem (finite_used requests),
        Graph.nodeCount_addNode, h.nodeCount]
      omega

/-- The generations that had a node keep it. -/
theorem Allotted.update_of_mem_used {s : Nat} (h : Allotted g requests graph node)
    (hstart : node start = some x ∨ node start = none) (hs : s ∈ Used requests) :
    Function.update node start (some x) s = node s := by
  rcases hstart with hx | hnone
  · rw [← hx, Function.update_eq_self]
  · refine Function.update_of_ne ?_ _ _
    rintro rfl
    obtain ⟨y, hy⟩ := h.used.2 hs
    cases hnone.symm.trans hy

/-! ## Generations and answers -/

/-- Whoever asked for the node of an event in a generation was answered the node of the generation,
and whoever allocated a node of its own another one. -/
structure Answered (world : World) (requests : List Request) (node : Nat → Option NodeId) :
    Prop where
  node? : ∀ {event start i}, Resolved requests event start i → world.node? requests i = node start
  claimed : ∀ {event start i}, Refers .signal requests event start i → ∃ x claimed,
    world.answer? requests i = some (.signals (some (x, claimed))) ∧
      (claimed = true ↔ ∀ j < i, ¬ Refers .signal requests event start j)
  direct : ∀ {i}, requests[i]? = some .allocate → ∃ x,
    world.answer? requests i = some (.allocated x) ∧
      (world.after requests).graph.contains x = true ∧ ∀ start, node start ≠ some x

/-- The answer to the last request, in a world that answered the requests before it. -/
structure Answers (world : World) (requests : List Request) (request : Request)
    (node : Nat → Option NodeId) : Prop where
  node? : ∀ {event start}, request.Asks event → Generation requests event start →
    ((world.after requests).serve request).1.node? = node start
  claimed : ∀ {event start}, request = .signal event → Generation requests event start →
    ∃ x claimed, ((world.after requests).serve request).1 = .signals (some (x, claimed)) ∧
      (claimed = true ↔ ∀ i, ¬ Refers .signal requests event start i)
  direct : request = .allocate → ∀ {start x}, node start = some x →
    (world.after requests).graph.contains x = true

/-- Earlier answers stay right if the generations that were used keep their nodes. -/
theorem Answered.concat (h : Answered world requests node)
    (hanswers : Answers world requests request node')
    (hused : ∀ start ∈ Used requests, node' start = node start)
    (hfresh : ∀ {start x}, node' start = some x → node start = some x ∨
      (world.after requests).graph.contains x = false) :
    Answered world (requests ++ [request]) node' where
  node? {event start i} hi := by
    rcases resolved_concat_iff.1 hi with hi | ⟨rfl, hrequest, hgen⟩
    · rw [node?_concat_of_lt hi.lt_length, hused start ⟨event, i, hi⟩]
      exact h.node? hi
    · rw [node?_concat_length]
      exact hanswers.node? hrequest hgen
  claimed {event start i} hi := by
    rcases refers_concat_iff.1 hi with hi | ⟨rfl, hrequest, hgen⟩
    · obtain ⟨x, claimed, hanswer, hclaimed⟩ := h.claimed hi
      refine ⟨x, claimed, (answer?_concat_of_lt hi.lt_length).trans hanswer, hclaimed.trans ?_⟩
      exact forall₂_congr fun j hj => not_congr (refers_concat_of_lt (hj.trans hi.lt_length)).symm
    · obtain ⟨x, claimed, hanswer, hclaimed⟩ := hanswers.claimed hrequest hgen
      refine ⟨x, claimed, (answer?_concat_length ..).trans (congrArg some hanswer),
        hclaimed.trans ⟨fun hnone j hj => ?_, fun hnone j hj => ?_⟩⟩
      · rw [refers_concat_of_lt hj]
        exact hnone j
      · exact hnone j hj.lt_length ((refers_concat_of_lt hj.lt_length).2 hj)
  direct {i} hi := by
    have hgraph := (confined (world.after requests)).contains request
    rw [after_concat]
    have hiff := getElem?_concat_and_iff (fun _ => True) requests request .allocate i
    rcases hiff.1 ⟨hi, trivial⟩ with ⟨hi, -⟩ | ⟨rfl, rfl, -⟩
    · obtain ⟨x, hanswer, hcontains, hother⟩ := h.direct hi
      refine ⟨x, (answer?_concat_of_lt (lt_length_of_getElem? hi)).trans hanswer,
        hgraph x hcontains, fun start hx => ?_⟩
      rcases hfresh hx with hx | hnew
      · exact hother start hx
      · rw [hcontains] at hnew
        cases hnew
    · refine ⟨_, answer?_concat_length .., ?_, fun start hx => ?_⟩
      · exact Graph.contains_addNode.2 (Or.inr rfl)
      · exact Graph.not_contains_new _ (hanswers.direct rfl hx)

end WaitFor.LiveEvents
