import WaitFor.Proofs.Monitor.Verdicts

/-! # Events, nodes and records

The live events, the graph and the records of a monitor are three tables that a submission changes
one after the other.  `Claims` says what they have in common at any moment of a submission, and
`Monitor.Coherent` what holds between two notices, where besides every node without a record has an
operation waiting for it.

`Claims` is kept by one lemma for each kind of change; the notices are put together from these.
-/

namespace WaitFor

open Relation

variable {live live' : LiveEvents} {g : Graph} {acts : Actions} {event : EventHandle}
  {x y : NodeId} {b : Binding} {text : String} {signal : Option EventHandle}

/-- A record takes the place of the one at its node, and leaves the others. -/
theorem Actions.get?_record (acts : Actions) (x y : NodeId) :
    (acts.record x text signal).get? y = if x = y then some ⟨text, signal⟩ else acts.get? y := by
  rw [get?, record, Table.get?_insert]
  rfl

theorem Actions.get?_record_self (acts : Actions) (x : NodeId) :
    (acts.record x text signal).get? x = some ⟨text, signal⟩ := by
  rw [get?_record, if_pos rfl]

theorem Actions.get?_record_eq_none_iff :
    (acts.record x text signal).get? y = none ↔ x ≠ y ∧ acts.get? y = none := by
  rw [get?_record]
  by_cases hxy : x = y
  · simp [hxy]
  · simp [hxy]

/-- A record counts unless there was one at its node. -/
theorem Actions.size_record (acts : Actions) (x : NodeId) (text : String)
    (signal : Option EventHandle) :
    (acts.record x text signal).size = if (acts.get? x).isSome then acts.size else acts.size + 1 :=
  acts.claims.size_insert x _

/-- What the live events, the edges and the records say about the nodes fits together. -/
structure Claims (live : LiveEvents) (g : Graph) (acts : Actions) : Prop where
  sound : g.Sound
  allocated : ∀ {event x}, live.node? event = some x → g.contains x = true
  node_inj : ∀ {event other x}, live.node? event = some x → live.node? other = some x →
    event = other
  bound : ∀ {event x}, live.binding? event = some (.bound x) →
    ∃ act, acts.get? x = some act ∧ act.signal = some event
  pending : ∀ {event x}, live.binding? event = some (.pending x) → acts.get? x = none
  contains_of_record : ∀ {x act}, acts.get? x = some act → g.contains x = true
  target_recorded : ∀ {x y}, g.Edge x y → ∃ act, acts.get? y = some act
  source_signals : ∀ {x y act}, g.Edge x y → acts.get? x = some act → act.signal.isSome = true

namespace Claims

/-- At first nothing is claimed. -/
theorem empty : Claims .empty .empty .empty where
  sound := .empty
  allocated := nofun
  node_inj := nofun
  bound := nofun
  pending := nofun
  contains_of_record := nofun
  target_recorded h := absurd h List.not_mem_nil
  source_signals h := absurd h List.not_mem_nil

/-- The operation at the node of a live event signals something, if there is one. -/
theorem signals_of_node? (h : Claims live g acts) (hx : live.node? event = some x) {act : Action}
    (hact : acts.get? x = some act) : act.signal.isSome = true := by
  rcases LiveEvents.node?_eq_some_iff.1 hx with hpending | hbound
  · rw [h.pending hpending] at hact
    cases hact
  · obtain ⟨act', hact', hsignal⟩ := h.bound hbound
    cases hact'.symm.trans hact
    rw [hsignal]
    rfl

/-! ## One lemma for each kind of change -/

/-- Events may lose their bindings. -/
theorem forget (h : Claims live g acts)
    (hlive : ∀ {event b}, live'.binding? event = some b →
      b = .unassigned ∨ live.binding? event = some b) : Claims live' g acts := by
  have hnode : ∀ {event x}, live'.node? event = some x → live.node? event = some x := by
    intro event x hx
    rw [LiveEvents.node?_eq_some_iff] at hx ⊢
    exact hx.imp (fun hx => (hlive hx).resolve_left nofun) fun hx => (hlive hx).resolve_left nofun
  refine { h with allocated := ?_, node_inj := ?_, bound := ?_, pending := ?_ }
  · exact fun hx => h.allocated (hnode hx)
  · exact fun hx hy => h.node_inj (hnode hx) (hnode hy)
  · exact fun hx => h.bound ((hlive hx).resolve_left nofun)
  · exact fun hx => h.pending ((hlive hx).resolve_left nofun)

/-- An event that starts a generation claims no node. -/
theorem unbind (h : Claims live g acts) (event : EventHandle) :
    Claims (live.bind event .unassigned) g acts := by
  refine h.forget fun hb => ?_
  rw [LiveEvents.binding?_bind] at hb
  split at hb
  · exact Or.inl (Option.some.inj hb).symm
  · exact Or.inr hb

/-- A new node is nobody's claim. -/
theorem addNode (h : Claims live g acts) : Claims live g.addNode.2 acts := by
  refine { h with
    sound := h.sound.addNode
    allocated := fun hx => Graph.contains_addNode.2 (Or.inl (h.allocated hx))
    contains_of_record := fun hx => Graph.contains_addNode.2 (Or.inl (h.contains_of_record hx))
    target_recorded := fun hxy => h.target_recorded (Graph.edge_addNode.1 hxy)
    source_signals := fun hxy => h.source_signals (Graph.edge_addNode.1 hxy) }

/-- A new node is no event's. -/
theorem node?_ne_new (h : Claims live g acts) (event : EventHandle) :
    live.node? event ≠ some g.addNode.1 :=
  fun hx => g.not_contains_new (h.allocated hx)

/-- A new node has no record. -/
theorem get?_new (h : Claims live g acts) : acts.get? g.addNode.1 = none := by
  rw [Option.eq_none_iff_forall_ne_some]
  exact fun act hact => g.not_contains_new (h.contains_of_record hact)

/-- An operation claims a node that is no event's; if it signals nothing, no operation waits for
it. -/
theorem record (h : Claims live g acts) (hx : g.contains x = true)
    (hfree : ∀ event, live.node? event ≠ some x)
    (hsignal : signal = none → ∀ y, ¬ g.Edge x y) :
    Claims live g (acts.record x text signal) := by
  have hother : ∀ {event y}, live.node? event = some y →
      (acts.record x text signal).get? y = acts.get? y := by
    intro event y hy
    rw [Actions.get?_record, if_neg]
    rintro rfl
    exact hfree event hy
  refine { h with bound := ?_, pending := ?_, contains_of_record := ?_, target_recorded := ?_,
                  source_signals := ?_ }
  · intro event y hy
    rw [hother (LiveEvents.node?_of_binding? hy)]
    exact h.bound hy
  · intro event y hy
    rw [hother (LiveEvents.node?_of_binding? hy)]
    exact h.pending hy
  · intro y act hy
    rw [Actions.get?_record] at hy
    split at hy
    · next hxy => exact hxy ▸ hx
    · exact h.contains_of_record hy
  · intro z y hzy
    rw [Actions.get?_record]
    split
    · exact ⟨_, rfl⟩
    · exact h.target_recorded hzy
  · intro z y act hzy hz
    rw [Actions.get?_record] at hz
    split at hz
    · next hxz =>
      cases hz
      rw [Option.isSome_iff_ne_none]
      exact fun hnone => hsignal hnone y (hxz ▸ hzy)
    · exact h.source_signals hzy hz

/-- An event is given a node that is no other event's, with a record that suits the binding. -/
theorem bind (h : Claims live g acts) (hx : g.contains x = true) (hb : b.node? = some x)
    (hfree : ∀ other, live.node? other = some x → other = event)
    (hbound : b = .bound x → ∃ act, acts.get? x = some act ∧ act.signal = some event)
    (hpending : b = .pending x → acts.get? x = none) : Claims (live.bind event b) g acts := by
  refine { h with allocated := ?_, node_inj := ?_, bound := ?_, pending := ?_ }
  · intro other y hy
    rw [LiveEvents.node?_bind] at hy
    split at hy
    · rw [hb] at hy
      exact Option.some.inj hy ▸ hx
    · exact h.allocated hy
  · intro other other' y hy hy'
    rw [LiveEvents.node?_bind, hb] at hy hy'
    split at hy
    · next he =>
      cases hy
      split at hy'
      · next he' => exact he.symm.trans he'
      · exact he.symm.trans (hfree other' hy').symm
    · split at hy'
      · next he' =>
        cases hy'
        exact (hfree other hy).trans he'
      · exact h.node_inj hy hy'
  · intro other y hy
    rw [LiveEvents.binding?_bind] at hy
    split at hy
    · next he =>
      cases hy
      cases hb
      exact he ▸ hbound rfl
    · exact h.bound hy
  · intro other y hy
    rw [LiveEvents.binding?_bind] at hy
    split at hy
    · cases hy
      cases hb
      exact hpending rfl
    · exact h.pending hy

/-- The first operation that signals an event claims its node, be it a placeholder or a new one. -/
theorem claim (h : Claims live g acts) (text : String) (hx : g.contains x = true)
    (hfree : ∀ other, live.node? other = some x → other = event) :
    Claims (live.bind event (.bound x)) g (acts.record x text (some event)) := by
  -- The event leaves the node, the node is recorded, and the event comes back.
  have hunbound : ∀ other, (live.bind event .unassigned).node? other ≠ some x := by
    intro other hother
    rw [LiveEvents.node?_bind] at hother
    split at hother
    · cases hother
    · next hne => exact hne (hfree other hother).symm
  have hrecorded : Claims (live.bind event .unassigned) g (acts.record x text (some event)) :=
    (h.unbind event).record hx hunbound nofun
  rw [← live.bind_bind .unassigned]
  refine hrecorded.bind hx rfl (fun other hother => absurd hother (hunbound other)) ?_ nofun
  exact fun _ => ⟨_, by rw [Actions.get?_record, if_pos rfl], rfl⟩

/-- An edge may be asked for from a node that signals something, if it is recorded, to a recorded
one. -/
theorem insertEdge (h : Claims live g acts)
    (hx : ∀ act, acts.get? x = some act → act.signal.isSome = true)
    (hy : ∃ act, acts.get? y = some act) : Claims live (g.insertEdge x y).2 acts := by
  by_cases hadm : g.Admits x y
  · obtain ⟨-, hcontains, hedge⟩ := Graph.insertEdge_of_admits h.sound hadm
    refine { h with
      sound := h.sound.insertEdge x y
      allocated := fun hz => hcontains _ ▸ h.allocated hz
      contains_of_record := fun hz => hcontains _ ▸ h.contains_of_record hz
      target_recorded := ?_
      source_signals := ?_ }
    · intro z w hzw
      rcases (hedge z w).1 hzw with hzw | ⟨rfl, rfl⟩
      · exact h.target_recorded hzw
      · exact hy
    · intro z w act hzw hz
      rcases (hedge z w).1 hzw with hzw | ⟨rfl, rfl⟩
      · exact h.source_signals hzw hz
      · exact hx act hz
  · rw [Graph.insertEdge_of_not_admits h.sound hadm]
    exact h

/-- A recorded operation may wait for a placeholder, since no edge leads into it. -/
theorem admits_of_unrecorded (h : Claims live g acts) (hx : g.contains x = true)
    (hnone : acts.get? x = none) (hy : ∃ act, acts.get? y = some act) : g.Admits x y := by
  obtain ⟨act, hact⟩ := hy
  have hne : x ≠ y := by
    rintro rfl
    rw [hnone] at hact
    cases hact
  refine ⟨hx, h.contains_of_record hact, hne, fun hleads => ?_⟩
  rcases ReflTransGen.cases_tail hleads with heq | ⟨z, -, hzx⟩
  · exact hne heq
  · obtain ⟨act', hact'⟩ := h.target_recorded hzx
    rw [hnone] at hact'
    cases hact'

end Claims

namespace Monitor

/-- What holds of a monitor between two notices.  Nodes without a record are placeholders, and an
operation waits for each of them. -/
structure Coherent (m : Monitor) : Prop where
  claims : Claims m.live m.graph m.actions
  waited : ∀ {x}, m.graph.contains x = true → m.actions.get? x = none → ∃ y, m.graph.Edge x y

namespace Coherent

variable {m m' : Monitor} {s : Submission} {waiter signaler : NodeId} {waits : List EventHandle}
  {report : DeadlockReport}

/-- A monitor that was told nothing is coherent. -/
theorem fresh (settings : MonitorSettings) : (fresh settings).Coherent where
  claims := .empty
  waited h := by cases h

/-! ## The node of a submission -/

/-- The node of an operation has a record, of an operation that signals the same. -/
theorem recorded_of_claiming (h : m.Coherent) (hclaim : Claiming m s waiter m') :
    ∃ act, m'.actions.get? waiter = some act ∧ act.signal = s.signal := by
  cases hclaim with
  | anonymous hsignal => exact ⟨_, Actions.get?_record_self .., hsignal.symm⟩
  | shared hsignal hb =>
    rw [hsignal]
    exact h.claims.bound hb
  | placeholder hsignal hb => exact ⟨_, Actions.get?_record_self .., hsignal.symm⟩
  | first hsignal hb => exact ⟨_, Actions.get?_record_self .., hsignal.symm⟩

/-- Coming to a node keeps a monitor coherent. -/
theorem of_claiming (h : m.Coherent) (hclaim : Claiming m s waiter m') : m'.Coherent := by
  have hnew : m.graph.addNode.2.contains m.graph.addNode.1 = true :=
    Graph.contains_addNode.2 (Or.inr rfl)
  -- A new node is recorded at once, so the nodes without a record are old ones.
  have hwaited : ∀ {text : String} {signal : Option EventHandle} {x : NodeId},
      m.graph.addNode.2.contains x = true →
      (m.actions.record m.graph.addNode.1 text signal).get? x = none →
      ∃ y, m.graph.addNode.2.Edge x y := by
    intro text signal x hx hnone
    obtain ⟨hne, hnone⟩ := Actions.get?_record_eq_none_iff.1 hnone
    have hx := (Graph.contains_addNode.1 hx).resolve_right (Ne.symm hne)
    exact (h.waited hx hnone).imp fun y hxy => Graph.edge_addNode.2 hxy
  cases hclaim with
  | anonymous hsignal =>
    refine ⟨h.claims.addNode.record hnew h.claims.node?_ne_new fun _ y hxy => ?_, hwaited⟩
    exact m.graph.not_edge_new (Graph.edge_addNode.1 hxy)
  | shared hsignal hb => exact h
  | placeholder hsignal hb =>
    have hnode := LiveEvents.node?_of_binding? hb
    refine ⟨h.claims.claim _ (h.claims.allocated hnode) fun other hother => ?_, ?_⟩
    · exact h.claims.node_inj hother hnode
    · exact fun hx hnone => h.waited hx (Actions.get?_record_eq_none_iff.1 hnone).2
  | first hsignal hb =>
    refine ⟨h.claims.addNode.claim _ hnew fun other hother => ?_, hwaited⟩
    exact absurd hother (h.claims.node?_ne_new other)

/-- The operation of a new submission is recorded at its node, and the event that it signals is
bound there. -/
theorem claimNode (h : m.Coherent) (hclaim : m.claimNode s = .ok (waiter, m')) :
    m'.Coherent ∧ (∃ act, m'.actions.get? waiter = some act ∧ act.signal = s.signal) ∧
      ∀ signal ∈ s.signal, m'.binding? signal = some (.bound waiter) := by
  have hclaim := claimNode_eq_ok_iff.1 hclaim
  exact ⟨h.of_claiming hclaim, h.recorded_of_claiming hclaim, hclaim.binding?⟩

/-! ## The waits of a submission -/

/-- One wait keeps the monitor coherent.  Only a wait for a bound event can be refused, and that
leaves the graph as it is. -/
theorem wait {live : LiveEvents} {graph : Graph} {event : EventHandle} (h : m.Coherent)
    (hwaiter : ∃ act, m.actions.get? waiter = some act)
    (hwait : m.live.waitNode? event m.graph = some (signaler, live, graph)) :
    ({ m with live, graph := (graph.insertEdge signaler waiter).2 } : Monitor).Coherent ∧
      ((graph.insertEdge signaler waiter).1 = false →
        live.binding? event = some (.bound signaler) ∧
          (graph.insertEdge signaler waiter).2 = graph ∧ ¬ graph.Admits signaler waiter) := by
  rcases LiveEvents.waitNode?_cases hwait with
    ⟨hbinding, rfl, rfl⟩ | ⟨hfirst, rfl, rfl, rfl⟩
  · have hnode := LiveEvents.node?_eq_some_iff.2 hbinding
    have hclaims := h.claims.insertEdge (fun act => h.claims.signals_of_node? hnode) hwaiter
    by_cases hadm : m.graph.Admits signaler waiter
    · obtain ⟨haccept, hcontains, hedge⟩ := Graph.insertEdge_of_admits h.claims.sound hadm
      refine ⟨⟨hclaims, fun hx hnone => ?_⟩, fun hrefuse => ?_⟩
      · exact (h.waited (hcontains _ ▸ hx) hnone).imp fun y hxy => (hedge _ y).2 (Or.inl hxy)
      · exact absurd (haccept.symm.trans hrefuse) nofun
    · have hrefuse := Graph.insertEdge_of_not_admits h.claims.sound hadm
      rw [hrefuse] at hclaims ⊢
      refine ⟨⟨hclaims, h.waited⟩,
        fun _ => ⟨hbinding.resolve_left fun hpending => hadm ?_, rfl, hadm⟩⟩
      exact h.claims.admits_of_unrecorded (h.claims.allocated hnode) (h.claims.pending hpending)
        hwaiter
  · have hnew : m.graph.addNode.2.contains m.graph.addNode.1 = true :=
      Graph.contains_addNode.2 (Or.inr rfl)
    have hclaims : Claims (m.live.bind event (.pending m.graph.addNode.1)) m.graph.addNode.2
        m.actions := by
      refine h.claims.addNode.bind hnew rfl ?_ nofun fun _ => h.claims.get?_new
      exact fun other hother => absurd hother (h.claims.node?_ne_new other)
    have hadm := hclaims.admits_of_unrecorded hnew h.claims.get?_new hwaiter
    obtain ⟨haccept, hcontains, hedge⟩ := Graph.insertEdge_of_admits hclaims.sound hadm
    have hplaceholder : ∀ act, m.actions.get? m.graph.addNode.1 = some act →
        act.signal.isSome = true := fun act hact => by rw [h.claims.get?_new] at hact; cases hact
    refine ⟨⟨hclaims.insertEdge hplaceholder hwaiter, fun {x} hx hnone => ?_⟩,
      fun hrefuse => absurd (haccept.symm.trans hrefuse) nofun⟩
    rcases Graph.contains_addNode.1 (hcontains x ▸ hx) with hx | rfl
    · refine (h.waited hx hnone).imp fun y hxy => ?_
      exact (hedge x y).2 (Or.inl (Graph.edge_addNode.2 hxy))
    · exact ⟨waiter, (hedge _ _).2 (Or.inr ⟨rfl, rfl⟩)⟩

/-- The node of an event that is bound stays when other events are waited for. -/
theorem binding?_waitNode? {live : LiveEvents} {graph : Graph} {event other : EventHandle}
    {x : NodeId} (hbound : m.live.binding? other = some (.bound x))
    (hwait : m.live.waitNode? event m.graph = some (signaler, live, graph)) :
    live.binding? other = some (.bound x) := by
  rcases LiveEvents.waitNode?_cases hwait with ⟨-, rfl, -⟩ | ⟨hfirst, -, rfl, -⟩
  · exact hbound
  · rw [LiveEvents.binding?_bind, if_neg]
    · exact hbound
    · rintro rfl
      rw [hfirst] at hbound
      cases hbound

/-- The waits of an operation keep the monitor coherent, its records, and the events that are bound.
-/
theorem insertWaits (h : m.Coherent) (hwaiter : ∃ act, m.actions.get? waiter = some act) :
    let r := insertWaits s waiter m waits
    r.2.Coherent ∧ r.2.actions = m.actions ∧
      (∀ event x, m.binding? event = some (.bound x) → r.2.binding? event = some (.bound x)) ∧
      ∀ report, r.1 = .error (.deadlock report) → ∃ event signaler,
        event ∈ waits ∧ r.2.binding? event = some (.bound signaler) ∧
          report = r.2.deadlockReport s event signaler waiter ∧
            ¬ r.2.graph.Admits signaler waiter := by
  induction waits generalizing m with
  | nil => exact ⟨h, rfl, fun _ _ hbound => hbound, nofun⟩
  | cons event waits ih =>
    cases hwait : m.live.waitNode? event m.graph with
    | none =>
      rw [insertWaits_of_unknown hwait]
      exact ⟨h, rfl, fun _ _ hbound => hbound, nofun⟩
    | some found =>
      obtain ⟨signaler, live, graph⟩ := found
      obtain ⟨hcoherent, hrefused⟩ := h.wait hwaiter hwait
      have hkept : ∀ event x, m.binding? event = some (.bound x) →
          live.binding? event = some (.bound x) :=
        fun event x hbound => binding?_waitNode? hbound hwait
      cases haccept : (graph.insertEdge signaler waiter).1 with
      | false =>
        obtain ⟨hbound, hgraph, hadm⟩ := hrefused haccept
        rw [insertWaits_of_refused hwait haccept]
        refine ⟨hcoherent, rfl, hkept, fun report hreport => ?_⟩
        refine ⟨event, signaler, List.mem_cons_self, hbound, ?_, by rwa [hgraph]⟩
        exact (Violation.deadlock.inj (Except.error.inj hreport)).symm
      | true =>
        rw [insertWaits_of_accepted hwait haccept]
        obtain ⟨hcoherent, hactions, hbindings, hreports⟩ := ih hcoherent hwaiter
        refine ⟨hcoherent, hactions, fun event x hx => hbindings event x (hkept event x hx), ?_⟩
        intro report hreport
        obtain ⟨other, x, hmem, hrest⟩ := hreports report hreport
        exact ⟨other, x, List.mem_cons_of_mem _ hmem, hrest⟩

/-! ## Notices -/

/-- A submission keeps a monitor coherent, accepted or not. -/
theorem submit (h : m.Coherent) (s : Submission) : (m.submit s).2.Coherent := by
  rw [Monitor.submit]
  split
  · exact h
  · split
    · exact h
    · next hclaim =>
      obtain ⟨hcoherent, ⟨act, hact, -⟩, -⟩ := h.claimNode hclaim
      exact (hcoherent.insertWaits ⟨act, hact⟩).1

/-- A notice about the life of an event only drops bindings. -/
theorem forget {live : LiveEvents} (h : m.Coherent)
    (hlive : ∀ {event b}, live.binding? event = some b →
      b = .unassigned ∨ m.live.binding? event = some b) : ({ m with live } : Monitor).Coherent :=
  ⟨h.claims.forget hlive, h.waited⟩

/-- One notice keeps a monitor coherent. -/
theorem notify (h : m.Coherent) (notice : Notice) : (Observer.notify m notice).state.Coherent := by
  have hcreated : ∀ event, ({ m with live := m.live.bind event .unassigned } : Monitor).Coherent :=
    fun event => ⟨h.claims.unbind event, h.waited⟩
  cases notice with
  | created event => exact hcreated event
  | destroyed event =>
    refine h.forget fun hb => ?_
    rw [LiveEvents.binding?_destroy] at hb
    split at hb
    · cases hb
    · exact Or.inr hb
  | hostReset event =>
    show ({ m with live := (m.live.reset event).2 } : Monitor).Coherent
    rw [LiveEvents.reset]
    split
    · exact hcreated event
    · exact h
  | submitted s => exact h.submit s

/-- Every run keeps a monitor coherent. -/
theorem afterAll (h : m.Coherent) (notices : List Notice) : (m.afterAll notices).Coherent := by
  induction notices generalizing m with
  | nil => exact h
  | cons notice notices ih => exact ih (h.notify notice)

end Coherent

/-- After any run, live events have allocated nodes of their own.  The node of a bound event is
recorded with the event, that of a pending event is not recorded.  Nodes without a record are waited
for and wait for nothing; nodes of operations that signal nothing are waited for by none and are no
event's; and only allocated nodes are recorded. -/
theorem invariant_of_afterAll (settings : MonitorSettings) (notices : List Notice) :
    let m := (fresh settings).afterAll notices
    (∀ event x, m.nodeOf? event = some x → m.graph.contains x = true) ∧
      (∀ event other x, m.nodeOf? event = some x → m.nodeOf? other = some x → event = other) ∧
      (∀ event x, m.binding? event = some (.bound x) →
        ∃ act, m.actions.get? x = some act ∧ act.signal = some event) ∧
      (∀ event x, m.binding? event = some (.pending x) → m.actions.get? x = none) ∧
      (∀ x, m.graph.contains x = true → m.actions.get? x = none →
        m.graph.predecessors x = [] ∧ m.graph.successors x ≠ []) ∧
      (∀ x act, m.actions.get? x = some act → act.signal = none →
        m.graph.successors x = [] ∧ ∀ event, m.nodeOf? event ≠ some x) ∧
      ∀ x, m.graph.contains x = false → m.actions.get? x = none := by
  intro m
  have h : m.Coherent := (Coherent.fresh settings).afterAll notices
  have hsilent : ∀ {act : Action}, act.signal = none → ¬ act.signal.isSome = true := by
    intro act hnone
    rw [hnone]
    exact Bool.false_ne_true
  refine ⟨fun event x => h.claims.allocated, fun event other x => h.claims.node_inj,
    fun event x => h.claims.bound, fun event x => h.claims.pending, ?_, ?_, ?_⟩
  · intro x hx hnone
    refine ⟨List.eq_nil_iff_forall_not_mem.2 fun y hy => ?_, fun hnil => ?_⟩
    · obtain ⟨act, hact⟩ := h.claims.target_recorded (h.claims.sound.mem_predecessors.1 hy)
      rw [hnone] at hact
      cases hact
    · obtain ⟨y, hxy⟩ := h.waited hx hnone
      rw [Graph.Edge, hnil] at hxy
      exact List.not_mem_nil hxy
  · intro x act hact hnone
    refine ⟨List.eq_nil_iff_forall_not_mem.2 fun y hxy => ?_, fun event hx => ?_⟩
    · exact hsilent hnone (h.claims.source_signals hxy hact)
    · exact hsilent hnone (h.claims.signals_of_node? hx hact)
  · intro x hx
    refine Option.eq_none_iff_forall_ne_some.2 fun act hact => ?_
    rw [h.claims.contains_of_record hact] at hx
    cases hx

/-- An operation that signals nothing waits on a bound event: it has a node of its own that nothing
waits for, and the event's node is recorded with the event. -/
theorem invariant_of_afterAll_of_pair :
    let m := (fresh {}).afterAll [.created ⟨1⟩,
      .submitted { operation := .barrier, signal := some ⟨1⟩ },
      .submitted { operation := .barrier, waits := [⟨1⟩] }]
    m.binding? ⟨1⟩ = some (.bound ⟨0⟩) ∧
      (∃ act, m.actions.get? ⟨0⟩ = some act ∧ act.signal = some ⟨1⟩) ∧
      m.graph.successors ⟨0⟩ = [⟨1⟩] ∧ m.graph.successors ⟨1⟩ = [] ∧
        ∀ event, m.nodeOf? event ≠ some ⟨1⟩ := by
  intro m
  obtain ⟨-, -, hbound, -, -, hsilent, -⟩ := invariant_of_afterAll {} [.created ⟨1⟩,
    .submitted { operation := .barrier, signal := some ⟨1⟩ },
    .submitted { operation := .barrier, waits := [⟨1⟩] }]
  have hnode : m.binding? ⟨1⟩ = some (.bound ⟨0⟩) := by decide +kernel
  obtain ⟨act, hact, hnone⟩ : ∃ act, m.actions.get? ⟨1⟩ = some act ∧ act.signal = none :=
    ⟨_, rfl, rfl⟩
  exact ⟨hnode, hbound ⟨1⟩ ⟨0⟩ hnode, by decide +kernel, hsilent ⟨1⟩ act hact hnone⟩

end Monitor

end WaitFor
