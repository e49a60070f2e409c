import Mathlib.Data.Finset.Card
import WaitFor.Proofs.Monitor.Growth

/-! # The waits of an operation

`Monitor.Awaited m waiter waits m'` says all that changes when the operation at `waiter` comes to
wait on some events; it is put together from single waits by `Awaited.append`.  A list of waits is
accepted, or one of them is refused and the monitor is as after those before it (`Judged`).  So a
list of waits that is told again changes nothing and is judged alike (`Coherent.insertWaits_again`).
-/

namespace WaitFor.Monitor

variable {m m' m'' : Monitor} {s : Submission} {waiter signaler x y : NodeId} {event : EventHandle}
  {waits before after : List EventHandle}

/-! ## Lists of waits -/

/-- If a list of waits is accepted, then the first of them, and the rest after it. -/
theorem insertWaits_cons_eq_ok (h : insertWaits s waiter m (event :: waits) = (.ok (), m')) :
    ∃ signaler live graph, m.live.waitNode? event m.graph = some (signaler, live, graph) ∧
      (graph.insertEdge signaler waiter).1 = true ∧
      insertWaits s waiter { m with live, graph := (graph.insertEdge signaler waiter).2 } waits =
        (.ok (), m') := by
  cases hwait : m.live.waitNode? event m.graph with
  | none =>
    rw [insertWaits_of_unknown hwait] at h
    cases h
  | some found =>
    obtain ⟨signaler, live, graph⟩ := found
    cases haccept : (graph.insertEdge signaler waiter).1 with
    | false =>
      rw [insertWaits_of_refused hwait haccept] at h
      cases h
    | true =>
      rw [insertWaits_of_accepted hwait haccept] at h
      exact ⟨signaler, live, graph, rfl, haccept, h⟩

/-- Waits that are accepted may be told apart from those after them. -/
theorem insertWaits_append (h : insertWaits s waiter m before = (.ok (), m')) :
    insertWaits s waiter m (before ++ after) = insertWaits s waiter m' after := by
  induction before generalizing m with
  | nil =>
    cases h
    rfl
  | cons event before ih =>
    obtain ⟨signaler, live, graph, hwait, haccept, hrest⟩ := insertWaits_cons_eq_ok h
    rw [List.cons_append, insertWaits_of_accepted hwait haccept]
    exact ih hrest

/-- Neither the descriptions nor the records matter to waits that are accepted. -/
theorem insertWaits_congr (h : insertWaits s waiter m waits = (.ok (), m')) (s' : Submission)
    (acts : Actions) :
    insertWaits s' waiter { m with actions := acts } waits =
      (.ok (), { m' with actions := acts }) := by
  induction waits generalizing m with
  | nil =>
    cases h
    rfl
  | cons event waits ih =>
    obtain ⟨signaler, live, graph, hwait, haccept, hrest⟩ := insertWaits_cons_eq_ok h
    rw [insertWaits_of_accepted (m := { m with actions := acts }) hwait haccept]
    exact ih hrest

/-- A wait on an event with a node changes nothing. -/
theorem waitNode?_of_node? (hx : m.live.node? event = some x) :
    m.live.waitNode? event m.graph = some (x, m.live, m.graph) := by
  rw [LiveEvents.waitNode?]
  rcases LiveEvents.node?_eq_some_iff.1 hx with hb | hb
  · rw [hb]
  · rw [hb]

/-- Waits on events that the operation waits on already change nothing. -/
theorem insertWaits_of_edges (hm : m.graph.Sound)
    (h : ∀ event ∈ waits, ∃ x, m.live.node? event = some x ∧ m.graph.Edge x waiter) :
    insertWaits s waiter m waits = (.ok (), m) := by
  induction waits with
  | nil => rfl
  | cons event waits ih =>
    obtain ⟨⟨x, hx, hedge⟩, h⟩ := List.forall_mem_cons.1 h
    have hinsert := Graph.insertEdge_of_edge hm hedge
    rw [insertWaits_of_accepted (waitNode?_of_node? hx) (congrArg Prod.fst hinsert), hinsert]
    exact ih h

/-- A wait that would close a cycle changes nothing. -/
theorem insertWaits_of_not_admits (hm : m.graph.Sound) (hx : m.live.node? event = some signaler)
    (hadm : ¬ m.graph.Admits signaler waiter) :
    insertWaits s waiter m (event :: waits) =
      (.error (.deadlock (m.deadlockReport s event signaler waiter)), m) := by
  have hinsert := Graph.insertEdge_of_not_admits hm hadm
  rw [insertWaits_of_refused (waitNode?_of_node? hx) (congrArg Prod.fst hinsert), hinsert]

/-! ## Accepted waits -/

/-- `m'` is `m` after the operation at `waiter` has come to wait on the events.  The events without
a node are pending now, each at a new node, and nothing else is bound anew. -/
structure Awaited (m : Monitor) (waiter : NodeId) (waits : List EventHandle) (m' : Monitor) :
    Prop where
  coherent : m'.Coherent
  settings : m'.settings = m.settings
  actions : m'.actions = m.actions
  contains : ∀ event, m'.live.contains event = m.live.contains event
  binding? : ∀ {event}, event ∉ waits ∨ m.binding? event ≠ some .unassigned →
    m'.binding? event = m.binding? event
  node? : ∀ event ∈ waits, ∃ x, m'.live.node? event = some x
  edge_iff : ∀ x y, m'.graph.Edge x y ↔
    m.graph.Edge x y ∨ y = waiter ∧ ∃ event ∈ waits, m'.live.node? event = some x
  nodeCount : m'.graph.nodeCount = m.graph.nodeCount +
    (waits.toFinset.filter fun event => m.binding? event = some .unassigned).card

namespace Awaited

/-- Without waits nothing is awaited. -/
theorem nil (h : m.Coherent) (waiter : NodeId) : Awaited m waiter [] m where
  coherent := h
  settings := rfl
  actions := rfl
  contains _ := rfl
  binding? _ := rfl
  node? := nofun
  edge_iff x y := by simp
  nodeCount := rfl

/-- An event that has a node keeps it. -/
theorem node?_of_node? (h : Awaited m waiter waits m') (hx : m.live.node? event = some x) :
    m'.live.node? event = some x := by
  have hne : m.binding? event ≠ some .unassigned := by
    intro hb
    rw [LiveEvents.node?_of_binding? hb] at hx
    cases hx
  have hb : m'.live.binding? event = m.live.binding? event := h.binding? (Or.inr hne)
  rwa [LiveEvents.node?, hb]

/-- The events that still have no node are those that the operation does not wait on. -/
theorem unassigned_iff (h : Awaited m waiter waits m') :
    m'.binding? event = some .unassigned ↔
      m.binding? event = some .unassigned ∧ event ∉ waits := by
  constructor
  · intro hb
    have hmem : event ∉ waits := by
      intro hmem
      obtain ⟨x, hx⟩ := h.node? event hmem
      rw [LiveEvents.node?_of_binding? hb] at hx
      cases hx
    exact ⟨h.binding? (Or.inl hmem) ▸ hb, hmem⟩
  · rintro ⟨hb, hmem⟩
    rw [h.binding? (Or.inl hmem), hb]

/-- Waits are awaited one after the other. -/
theorem append (h : Awaited m waiter before m') (h' : Awaited m' waiter after m'') :
    Awaited m waiter (before ++ after) m'' where
  coherent := h'.coherent
  settings := h'.settings.trans h.settings
  actions := h'.actions.trans h.actions
  contains event := (h'.contains event).trans (h.contains event)
  binding? {event} hevent := by
    rcases hevent with hmem | hne
    · rw [List.mem_append, not_or] at hmem
      rw [h'.binding? (Or.inl hmem.2), h.binding? (Or.inl hmem.1)]
    · have hb := h.binding? (Or.inr hne)
      rw [h'.binding? (Or.inr (hb ▸ hne)), hb]
  node? event hevent := by
    rcases List.mem_append.1 hevent with hmem | hmem
    · exact (h.node? event hmem).imp fun x hx => h'.node?_of_node? hx
    · exact h'.node? event hmem
  edge_iff x y := by
    have hbefore : ∀ event ∈ before, m'.live.node? event = m''.live.node? event := by
      intro event hevent
      obtain ⟨z, hz⟩ := h.node? event hevent
      rw [hz, h'.node?_of_node? hz]
    have hnodes : (∃ event ∈ before ++ after, m''.live.node? event = some x) ↔
        (∃ event ∈ before, m'.live.node? event = some x) ∨
          ∃ event ∈ after, m''.live.node? event = some x := by
      simp only [List.mem_append, or_and_right, exists_or]
      refine or_congr_left (exists_congr fun event => and_congr_right fun hevent => ?_)
      rw [hbefore event hevent]
    rw [h'.edge_iff, h.edge_iff, hnodes, or_assoc, ← and_or_left]
  nodeCount := by
    -- The events of `after` that still have no node are those that `before` does not name.
    have hunassigned : ((before ++ after).toFinset.filter fun event =>
          m.binding? event = some .unassigned) =
        (before.toFinset.filter fun event => m.binding? event = some .unassigned) ∪
          after.toFinset.filter fun event => m'.binding? event = some .unassigned := by
      ext event
      simp only [Finset.mem_filter, Finset.mem_union, List.mem_toFinset, List.mem_append,
        h.unassigned_iff]
      tauto
    have hdisjoint : Disjoint
        (before.toFinset.filter fun event => m.binding? event = some .unassigned)
        (after.toFinset.filter fun event => m'.binding? event = some .unassigned) := by
      refine Finset.disjoint_left.2 fun event hevent hevent' => ?_
      rw [Finset.mem_filter, List.mem_toFinset] at hevent hevent'
      exact (h.unassigned_iff.1 hevent'.2).2 hevent.1
    rw [h'.nodeCount, h.nodeCount, hunassigned, Finset.card_union_of_disjoint hdisjoint,
      Nat.add_assoc]

end Awaited

namespace Coherent

/-- A wait that is accepted. -/
theorem awaited_one {live : LiveEvents} {graph : Graph} (h : m.Coherent)
    (hwaiter : ∃ act, m.actions.get? waiter = some act)
    (hwait : m.live.waitNode? event m.graph = some (signaler, live, graph))
    (haccept : (graph.insertEdge signaler waiter).1 = true) :
    Awaited m waiter [event]
      { m with live, graph := (graph.insertEdge signaler waiter).2 } where
  coherent := (h.wait hwaiter hwait).1
  settings := rfl
  actions := rfl
  contains := (LiveEvents.resolves_of_waitNode? hwait).contains
  binding? {other} hother := by
    rcases LiveEvents.waitNode?_cases hwait with ⟨-, rfl, -⟩ | ⟨hb, -, rfl, -⟩
    · rfl
    · show (m.live.bind event _).binding? other = _
      rw [LiveEvents.binding?_bind, if_neg]
      · rfl
      · rintro rfl
        exact hother.elim (fun hmem => hmem List.mem_cons_self) fun hne => hne hb
  node? other hother := by
    obtain rfl := List.mem_singleton.1 hother
    exact ⟨signaler, ((LiveEvents.resolves_of_waitNode? hwait).node? other).trans (if_pos rfl)⟩
  edge_iff x y := by
    have hr := LiveEvents.resolves_of_waitNode? hwait
    obtain ⟨hsound, hedge⟩ : graph.Sound ∧ (graph.Edge x y ↔ m.graph.Edge x y) := by
      rcases hr.graph with ⟨-, rfl⟩ | ⟨-, -, rfl⟩
      · exact ⟨h.claims.sound, Iff.rfl⟩
      · exact ⟨h.claims.sound.addNode, Graph.edge_addNode⟩
    have hadm : graph.Admits signaler waiter := by
      by_contra hadm
      rw [Graph.insertEdge_of_not_admits hsound hadm] at haccept
      cases haccept
    have hnode : live.node? event = some signaler := (hr.node? event).trans (if_pos rfl)
    simp only [(Graph.insertEdge_of_admits hsound hadm).2.2, hedge, List.mem_singleton,
      exists_eq_left, hnode, Option.some.injEq]
    rw [and_comm, eq_comm (a := x)]
  nodeCount := by
    show (graph.insertEdge signaler waiter).2.nodeCount = _
    have hsingle : ([event].toFinset.filter fun event => m.binding? event = some .unassigned) =
        if m.binding? event = some .unassigned then {event} else ∅ :=
      Finset.filter_singleton _ event
    rcases LiveEvents.waitNode?_cases hwait with ⟨hb, rfl, rfl⟩ | ⟨hb, rfl, rfl, rfl⟩
    · have hne : m.binding? event ≠ some .unassigned := by
        rcases hb with hb | hb
        · simp [Monitor.binding?, hb]
        · simp [Monitor.binding?, hb]
      rw [Graph.insertEdge_nodeCount h.claims.sound, hsingle, if_neg hne]
      rfl
    · have hunassigned : m.binding? event = some .unassigned := hb
      rw [Graph.insertEdge_nodeCount h.claims.sound.addNode, hsingle, if_pos hunassigned,
        Graph.nodeCount_addNode]
      rfl

/-- All that a list of accepted waits does. -/
theorem awaited (h : m.Coherent) (hwaiter : ∃ act, m.actions.get? waiter = some act)
    (haccept : Monitor.insertWaits s waiter m waits = (.ok (), m')) :
    Awaited m waiter waits m' := by
  induction waits generalizing m with
  | nil =>
    cases haccept
    exact .nil h waiter
  | cons event waits ih =>
    obtain ⟨signaler, live, graph, hwait, hedge, hrest⟩ := insertWaits_cons_eq_ok haccept
    have hone := h.awaited_one hwaiter hwait hedge
    exact hone.append (ih hone.coherent hwaiter hrest)

end Coherent

/-! ## Verdicts on waits -/

/-- How waits of the operation at `waiter` are judged: all of them are accepted, or the wait on
`event` would close a cycle, and the waits before it stay. -/
inductive Judged (m : Monitor) (s : Submission) (waiter : NodeId) (waits : List EventHandle) :
    Verdict × Monitor → Prop
  | accepted {m' : Monitor} (haccept : insertWaits s waiter m waits = (.ok (), m')) :
    Judged m s waiter waits (.ok (), m')
  | refused {m' : Monitor} {before after : List EventHandle} {event : EventHandle}
      {signaler : NodeId} (hsplit : waits = before ++ event :: after)
      (hbefore : insertWaits s waiter m before = (.ok (), m'))
      (hbound : m'.binding? event = some (.bound signaler))
      (hadm : ¬ m'.graph.Admits signaler waiter) :
    Judged m s waiter waits
      (.error (.deadlock (m'.deadlockReport s event signaler waiter)), m')

/-- All that can come of waits on live events. -/
theorem Coherent.judged (h : m.Coherent) (hwaiter : ∃ act, m.actions.get? waiter = some act)
    (hlive : ∀ event ∈ waits, m.live.contains event = true) :
    Judged m s waiter waits (Monitor.insertWaits s waiter m waits) := by
  induction waits generalizing m with
  | nil => exact .accepted rfl
  | cons event waits ih =>
    obtain ⟨hevent, hlive⟩ := List.forall_mem_cons.1 hlive
    obtain ⟨signaler, live, graph, hwait, hr⟩ := LiveEvents.waitNode?_resolves (g := m.graph) hevent
    cases haccept : (graph.insertEdge signaler waiter).1 with
    | true =>
      have hinsert : ∀ waits, Monitor.insertWaits s waiter m (event :: waits) = _ :=
        fun waits => insertWaits_of_accepted hwait haccept
      have hnext : ∀ other ∈ waits, live.contains other = true :=
        fun other hother => (hr.contains other).trans (hlive other hother)
      have hrest := ih (h.wait hwaiter hwait).1 hwaiter hnext
      rw [hinsert]
      generalize hresult : Monitor.insertWaits s waiter _ waits = result at hrest ⊢
      cases hrest with
      | accepted haccept => exact .accepted ((hinsert waits).trans haccept)
      | @refused m' before after _ _ hsplit hbefore hbound hadm =>
        exact .refused (congrArg (event :: ·) hsplit) ((hinsert before).trans hbefore) hbound hadm
    | false =>
      -- Only a wait on a bound event is refused, and then nothing was allocated for it.
      obtain ⟨hbound, hgraph, hadm⟩ := (h.wait hwaiter hwait).2 haccept
      rcases LiveEvents.waitNode?_cases hwait with ⟨-, rfl, rfl⟩ | ⟨-, -, rfl, -⟩
      · rw [insertWaits_of_refused hwait haccept, hgraph]
        have hsplit : event :: waits = [] ++ event :: waits := rfl
        exact .refused hsplit rfl hbound hadm
      · rw [LiveEvents.binding?_bind, if_pos rfl] at hbound
        cases hbound

/-- Whatever the verdict, some of the waits are accepted, up to the refused one. -/
theorem Coherent.exists_awaited (h : m.Coherent)
    (hwaiter : ∃ act, m.actions.get? waiter = some act)
    (hlive : ∀ event ∈ waits, m.live.contains event = true) :
    ∃ before after, waits = before ++ after ∧
      Awaited m waiter before (Monitor.insertWaits s waiter m waits).2 := by
  have hjudged := h.judged (s := s) hwaiter hlive
  generalize Monitor.insertWaits s waiter m waits = result at hjudged ⊢
  cases hjudged with
  | accepted haccept => exact ⟨waits, [], (List.append_nil waits).symm, h.awaited hwaiter haccept⟩
  | refused hsplit hbefore => exact ⟨_, _, hsplit, h.awaited hwaiter hbefore⟩

/-- Waits that are told twice in a row change nothing the second time, and are judged alike. -/
theorem Coherent.insertWaits_again (h : m.Coherent)
    (hwaiter : ∃ act, m.actions.get? waiter = some act)
    (hlive : ∀ event ∈ waits, m.live.contains event = true) :
    Monitor.insertWaits s waiter (Monitor.insertWaits s waiter m waits).2 waits =
      Monitor.insertWaits s waiter m waits := by
  have hkept : ∀ {waits m'}, Awaited m waiter waits m' →
      Monitor.insertWaits s waiter m' waits = (.ok (), m') := by
    refine fun {waits m'} hawaited => insertWaits_of_edges hawaited.coherent.claims.sound ?_
    intro event hevent
    obtain ⟨x, hx⟩ := hawaited.node? event hevent
    exact ⟨x, hx, (hawaited.edge_iff x waiter).2 (Or.inr ⟨rfl, event, hevent, hx⟩)⟩
  have hjudged := h.judged (s := s) hwaiter hlive
  generalize Monitor.insertWaits s waiter m waits = result at hjudged ⊢
  cases hjudged with
  | accepted haccept => exact hkept (h.awaited hwaiter haccept)
  | refused hsplit hbefore hbound hadm =>
    have hawaited := h.awaited hwaiter hbefore
    rw [hsplit, insertWaits_append (hkept hawaited)]
    exact insertWaits_of_not_admits hawaited.coherent.claims.sound
      (LiveEvents.node?_of_binding? hbound) hadm

end WaitFor.Monitor
