import WaitFor.Proofs.Monitor.Coherence

/-! # What stays from notice to notice

`Monitor.Grows m m'` says what a monitor never gives up: its nodes, the edges at both of their ends
in their order, the records, and that a node which no event can come back to is never claimed.
Every kind of change that a notice is made of lets a monitor grow, so every run does. -/

namespace WaitFor

variable {m m' m'' : Monitor} {event : EventHandle} {x y : NodeId}

/-- What is added last leaves the list before it. -/
theorem Graph.prefix_addLast (ids : List NodeId) (x : NodeId) : ids <+: addLast ids x := by
  rw [addLast]
  split
  · exact List.prefix_refl ids
  · exact List.prefix_append ids [x]

namespace Monitor

/-- No operation claimed the node, and no event has it any more. -/
def Abandoned (m : Monitor) (x : NodeId) : Prop :=
  m.graph.contains x = true ∧ m.actions.get? x = none ∧ ∀ event, m.live.node? event ≠ some x

/-- `m'` has all that `m` has: nodes, edges and records stay, new edges come last at both of their
ends, and abandoned nodes stay abandoned. -/
structure Grows (m m' : Monitor) : Prop where
  contains : ∀ {x}, m.graph.contains x = true → m'.graph.contains x = true
  successors : ∀ x, m.graph.successors x <+: m'.graph.successors x
  predecessors : ∀ x, m.graph.predecessors x <+: m'.graph.predecessors x
  get? : ∀ {x act}, m.actions.get? x = some act → m'.actions.get? x = some act
  abandoned : ∀ {x}, m.Abandoned x → m'.Abandoned x

namespace Grows

/-- A monitor grows into itself. -/
theorem refl (m : Monitor) : Grows m m where
  contains hx := hx
  successors _ := List.prefix_refl _
  predecessors _ := List.prefix_refl _
  get? hx := hx
  abandoned hx := hx

/-- What grows twice grows. -/
theorem trans (h : Grows m m') (h' : Grows m' m'') : Grows m m'' where
  contains hx := h'.contains (h.contains hx)
  successors x := (h.successors x).trans (h'.successors x)
  predecessors x := (h.predecessors x).trans (h'.predecessors x)
  get? hx := h'.get? (h.get? hx)
  abandoned hx := h'.abandoned (h.abandoned hx)

/-- Edges stay. -/
theorem hasEdge (h : Grows m m') (hxy : m.graph.hasEdge x y = true) :
    m'.graph.hasEdge x y = true := by
  rw [Graph.hasEdge_iff] at hxy ⊢
  exact ⟨h.contains hxy.1, (h.successors x).subset hxy.2⟩

/-! ## One lemma for each kind of change -/

/-- Events may lose their nodes. -/
theorem forget (m : Monitor) {live : LiveEvents}
    (hlive : ∀ {event x}, live.node? event = some x → m.live.node? event = some x) :
    Grows m { m with live } :=
  { refl m with abandoned := fun hx => ⟨hx.1, hx.2.1, fun event he => hx.2.2 event (hlive he)⟩ }

/-- A new node makes a monitor grow. -/
theorem addNode (m : Monitor) : Grows m { m with graph := m.graph.addNode.2 } where
  contains hx := Graph.contains_addNode.2 (Or.inl hx)
  successors x := by simp
  predecessors x := by simp
  get? hx := hx
  abandoned hx := ⟨Graph.contains_addNode.2 (Or.inl hx.1), hx.2⟩

/-- An event is given the node that it has, or a new one. -/
theorem resolve {live : LiveEvents} {graph : Graph}
    (hr : m.live.Resolves m.graph event x live graph) : Grows m { m with live, graph } := by
  have hgraph : Grows m { m with graph } := by
    rcases hr.graph with ⟨-, rfl⟩ | ⟨-, -, rfl⟩
    · exact refl m
    · exact addNode m
  refine { hgraph with abandoned := fun {y} hy => ?_ }
  obtain ⟨hcontains, hnone, hfree⟩ := hy
  refine ⟨hgraph.contains hcontains, hnone, fun other hother => ?_⟩
  rw [hr.node?] at hother
  split at hother
  · cases hother
    rcases hr.graph with ⟨hnode, -⟩ | ⟨-, rfl, -⟩
    · exact hfree event hnode
    · exact m.graph.not_contains_new hcontains
  · exact hfree other hother

/-- An operation claims a node that is not abandoned. -/
theorem record (text : String) (signal : Option EventHandle) (hnone : m.actions.get? x = none)
    (hx : ¬ m.Abandoned x) : Grows m { m with actions := m.actions.record x text signal } := by
  have hother : ∀ {y}, x ≠ y → (m.actions.record x text signal).get? y = m.actions.get? y := by
    intro y hxy
    rw [Actions.get?_record, if_neg hxy]
  refine { refl m with get? := fun {y act} hy => ?_, abandoned := fun {y} hy => ?_ }
  · rw [hother, hy]
    rintro rfl
    rw [hnone] at hy
    cases hy
  · refine ⟨hy.1, ?_, hy.2.2⟩
    rw [hother, hy.2.1]
    rintro rfl
    exact hx hy

/-- An insertion makes a monitor grow, refused or not. -/
theorem insertEdge (hm : m.graph.Sound) (x y : NodeId) :
    Grows m { m with graph := (m.graph.insertEdge x y).2 } := by
  by_cases hadm : m.graph.Admits x y
  · obtain ⟨-, hcontains, -⟩ := Graph.insertEdge_of_admits hm hadm
    refine ⟨fun {z} hz => (hcontains z).trans hz, fun z => ?_, fun z => ?_, fun hz => hz,
      fun {z} hz => ⟨(hcontains z).trans hz.1, hz.2⟩⟩
    · rw [Graph.insertEdge_successors hm hadm]
      split
      · next hzx => exact hzx ▸ Graph.prefix_addLast _ y
      · exact List.prefix_refl _
    · rw [Graph.insertEdge_predecessors hm hadm]
      split
      · next hzy => exact hzy ▸ Graph.prefix_addLast _ x
      · exact List.prefix_refl _
  · rw [Graph.insertEdge_of_not_admits hm hadm]
    exact refl m

end Grows

/-! ## Submissions -/

variable {s : Submission} {waiter signaler : NodeId} {waits : List EventHandle}

/-- All events that the submission names are live. -/
def Validates (m : Monitor) (s : Submission) : Prop :=
  (∀ event ∈ s.waits, m.live.contains event = true) ∧
    ∀ event ∈ s.signal, m.live.contains event = true

instance (m : Monitor) (s : Submission) : Decidable (m.Validates s) :=
  inferInstanceAs (Decidable (_ ∧ _))

/-- A submission that names an event which is not live is refused without a trace. -/
theorem submit_of_not_validates (h : ¬ m.Validates s) :
    ∃ violation, m.submit s = (.error violation, m) := by
  rw [submit]
  split
  · exact ⟨_, rfl⟩
  · next hfind =>
    have hwaits : ∀ event ∈ s.waits, m.live.contains event = true := by
      simpa using List.find?_eq_none.1 hfind
    obtain ⟨event, hsignal, hdead⟩ : ∃ event ∈ s.signal, ¬ m.live.contains event = true := by
      by_contra hno
      refine h ⟨hwaits, fun event hsignal => ?_⟩
      by_contra hdead
      exact hno ⟨event, hsignal, hdead⟩
    rw [claimNode_of_unknown hsignal (Bool.eq_false_iff.2 hdead)]
    exact ⟨_, rfl⟩

/-- Any other submission comes to a node, and its waits are judged from there. -/
theorem submit_of_claiming (hwaits : ∀ event ∈ s.waits, m.live.contains event = true)
    (hclaim : Claiming m s waiter m') : m.submit s = insertWaits s waiter m' s.waits := by
  have hfind : (s.waits.find? fun event => !m.live.contains event) = none := by
    simpa using hwaits
  rw [submit, hfind, claimNode_eq_ok_iff.2 hclaim]

/-- The operation of a valid submission comes to a node. -/
theorem Validates.exists_claiming (h : m.Validates s) : ∃ waiter m', Claiming m s waiter m' := by
  cases hclaim : m.claimNode s with
  | ok claimed => exact ⟨claimed.1, claimed.2, claimNode_eq_ok_iff.1 hclaim⟩
  | error violation =>
    obtain ⟨event, hsignal, hnone, -⟩ := claimNode_eq_error hclaim
    have hdead := LiveEvents.signalNode?_eq_none_iff.1 hnone
    exact absurd ((h.2 event hsignal).symm.trans hdead) Bool.noConfusion

/-- The operation of a submission has come to the node `waiter`, and its waits are still to be
judged in `m'`. -/
structure Placed (m : Monitor) (s : Submission) (waiter : NodeId) (m' : Monitor) : Prop where
  claiming : Claiming m s waiter m'
  coherent : m'.Coherent
  recorded : ∃ act, m'.actions.get? waiter = some act
  contains : ∀ event ∈ s.waits, m'.live.contains event = true
  submit : m.submit s = insertWaits s waiter m' s.waits

/-- The operation of a submission of live events comes to a node. -/
theorem Coherent.exists_placed (h : m.Coherent) (hvalid : m.Validates s) :
    ∃ waiter m', Placed m s waiter m' := by
  obtain ⟨waiter, m', hclaim⟩ := hvalid.exists_claiming
  obtain ⟨act, hact, -⟩ := h.recorded_of_claiming hclaim
  exact ⟨waiter, m', hclaim, h.of_claiming hclaim, ⟨act, hact⟩,
    fun event hevent => (hclaim.contains event).trans (hvalid.1 event hevent),
    submit_of_claiming hvalid.1 hclaim⟩

/-- The node that the operation of a submission claims has no record before. -/
theorem Coherent.grows_of_claiming (h : m.Coherent) (hclaim : Claiming m s waiter m') :
    Grows m m' := by
  have hnew : m.actions.get? m.graph.addNode.1 = none := h.claims.get?_new
  cases hclaim with
  | anonymous =>
    have hrecord := Grows.record s.text none hnew fun hx => m.graph.not_contains_new hx.1
    exact hrecord.trans (.addNode _)
  | shared => exact .refl m
  | @placeholder event _ _ hb =>
    have hlive : m.live.contains event = true := LiveEvents.contains_iff.2 ⟨_, hb⟩
    have hr : m.live.Resolves m.graph event waiter (m.live.bind event (.bound waiter)) m.graph :=
      .rebind hlive (LiveEvents.node?_of_binding? hb) rfl
    refine (Grows.resolve hr).trans (Grows.record s.text (some event) (h.claims.pending hb) ?_)
    exact fun hx => hx.2.2 event ((hr.node? event).trans (if_pos rfl))
  | @first event _ hb =>
    have hlive : m.live.contains event = true := LiveEvents.contains_iff.2 ⟨_, hb⟩
    have hr : m.live.Resolves m.graph event m.graph.addNode.1
        (m.live.bind event (.bound m.graph.addNode.1)) m.graph.addNode.2 :=
      .allocate hlive (LiveEvents.node?_of_binding? hb) rfl
    refine (Grows.resolve hr).trans (Grows.record s.text (some event) hnew ?_)
    exact fun hx => hx.2.2 event ((hr.node? event).trans (if_pos rfl))

/-- One wait, be it accepted or refused. -/
theorem Grows.wait {live : LiveEvents} {graph : Graph} (hm : m.graph.Sound)
    (hwait : m.live.waitNode? event m.graph = some (signaler, live, graph)) (waiter : NodeId) :
    Grows m { m with live, graph := (graph.insertEdge signaler waiter).2 } := by
  have hr := LiveEvents.resolves_of_waitNode? hwait
  have hgraph : graph.Sound := by
    rcases hr.graph with ⟨-, rfl⟩ | ⟨-, -, rfl⟩
    · exact hm
    · exact hm.addNode
  exact (Grows.resolve hr).trans (Grows.insertEdge hgraph signaler waiter)

/-- The waits of an operation, be they accepted or refused. -/
theorem Coherent.grows_insertWaits (h : m.Coherent)
    (hwaiter : ∃ act, m.actions.get? waiter = some act) :
    Grows m (Monitor.insertWaits s waiter m waits).2 := by
  induction waits generalizing m with
  | nil => exact .refl m
  | cons event waits ih =>
    cases hwait : m.live.waitNode? event m.graph with
    | none =>
      rw [insertWaits_of_unknown hwait]
      exact .refl m
    | some found =>
      obtain ⟨signaler, live, graph⟩ := found
      have hnext := Grows.wait h.claims.sound hwait waiter
      cases haccept : (graph.insertEdge signaler waiter).1 with
      | false =>
        rw [insertWaits_of_refused hwait haccept]
        exact hnext
      | true =>
        rw [insertWaits_of_accepted hwait haccept]
        exact hnext.trans (ih (h.wait hwaiter hwait).1 hwaiter)

/-! ## Runs -/

/-- One notice lets a monitor grow. -/
theorem Coherent.grows_notify (h : m.Coherent) (notice : Notice) :
    Grows m (Observer.notify m notice).state := by
  have hcreated : ∀ event, Grows m { m with live := m.live.bind event .unassigned } := by
    refine fun event => .forget m fun {other x} hx => ?_
    rw [LiveEvents.node?_bind] at hx
    split at hx
    · cases hx
    · exact hx
  cases notice with
  | created event => exact hcreated event
  | destroyed event =>
    refine .forget m fun hx => ?_
    rw [LiveEvents.node?_destroy] at hx
    split at hx
    · cases hx
    · exact hx
  | hostReset event =>
    show Grows m { m with live := (m.live.reset event).2 }
    rw [LiveEvents.reset]
    split
    · exact hcreated event
    · exact .refl m
  | submitted s =>
    show Grows m (m.submit s).2
    by_cases hvalid : m.Validates s
    · obtain ⟨waiter, m', hplaced⟩ := h.exists_placed hvalid
      rw [hplaced.submit]
      exact (h.grows_of_claiming hplaced.claiming).trans
        (hplaced.coherent.grows_insertWaits hplaced.recorded)
    · obtain ⟨violation, hsubmit⟩ := submit_of_not_validates hvalid
      rw [hsubmit]
      exact .refl m

/-- Every run lets a monitor grow. -/
theorem Coherent.grows_afterAll (h : m.Coherent) (notices : List Notice) :
    Grows m (m.afterAll notices) := by
  induction notices generalizing m with
  | nil => exact .refl m
  | cons notice notices ih => exact (h.grows_notify notice).trans (ih (h.notify notice))

end Monitor

end WaitFor
