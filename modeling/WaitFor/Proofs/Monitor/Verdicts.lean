import WaitFor.Monitor
import WaitFor.Proofs.Monitor.Tracks

/-! # Verdicts of the deadlock monitor

A monitor answers every notice as the chronicle does.  One step is a wait: the edge that it asks for
is refused exactly if the chronicle blocks the wait, and an accepted edge is the wait that the
chronicle adds.
-/

namespace WaitFor

open Relation

/-- What a verdict refuses, if it refuses something. -/
def Verdict.refusal? : Verdict → Option (Refusal EventHandle)
  | .ok () => none
  | .error violation => some violation.refusal

namespace Verdict

variable {verdict : Verdict}

/-- There is no refusal exactly if the notice is accepted. -/
theorem refusal?_eq_none : verdict.refusal? = none ↔ verdict = .ok () := by
  rcases verdict with violation | ⟨⟩
  · constructor
    · intro h
      cases h
    · intro h
      cases h
  · exact ⟨fun _ => rfl, fun _ => rfl⟩

/-- A deadlock is told by its wait. -/
theorem refusal?_eq_deadlock {event : EventHandle} :
    verdict.refusal? = some (.deadlock event) ↔
      ∃ report, verdict = .error (.deadlock report) ∧ report.waitEvent = event := by
  constructor
  · intro h
    rcases verdict with (_ | _ | report) | ⟨⟩
    · cases h
    · cases h
    · exact ⟨report, rfl, Refusal.deadlock.inj (Option.some.inj h)⟩
    · cases h
  · rintro ⟨report, rfl, rfl⟩
    rfl

end Verdict

/-! ## Edges into the node of a submission -/

namespace Tracks

variable {live : LiveEvents} {g : Graph} {c : Chronicle EventHandle} {node : Nat → Option NodeId}
  {signal event : EventHandle} {x y : NodeId} {γ δ : Nat}

/-- An edge to the node of the signaled event is refused if the wait is blocked. -/
theorem admits_iff (h : Tracks live g c node) (hγ : c.current event = some γ)
    (hδ : c.current signal = some δ) (hx : node γ = some x) (hy : node δ = some y) :
    g.Admits x y ↔ ¬ c.Blocks signal event := by
  have hne : x = y ↔ event = signal := by
    constructor
    · rintro rfl
      exact h.current_inj hγ (h.node_inj hx hy ▸ hδ)
    · rintro rfl
      rw [hγ] at hδ
      rw [Option.some.inj hδ, hy] at hx
      exact (Option.some.inj hx).symm
  unfold Graph.Admits Chronicle.Blocks
  rw [hγ, hδ, h.leads_iff hy hx, Ne, hne]
  simp only [Option.mem_some, exists_eq_left', not_or]
  exact ⟨fun hadm => hadm.2.2, fun hnot => ⟨h.allocated hx, h.allocated hy, hnot⟩⟩

/-- An edge to a node that stands for no generation is never refused. -/
theorem admits_of_anonymous (h : Tracks live g c node) (hx : node γ = some x)
    (hy : g.contains y = true) (hanon : ∀ δ, node δ ≠ some y) : g.Admits x y := by
  refine ⟨h.allocated hx, hy, ?_, ?_⟩
  · rintro rfl
    exact hanon γ hx
  · intro hleads
    rcases ReflTransGen.cases_head hleads with rfl | ⟨z, hedge, -⟩
    · exact hanon γ hx
    · obtain ⟨δ, hδ, -⟩ := h.wait_of_edge hedge
      exact hanon δ hδ

/-- An accepted edge to the node of the signaled event is the wait that the chronicle adds. -/
theorem insertEdge (h : Tracks live g c node) (hγ : c.current event = some γ)
    (hδ : c.current signal = some δ) (hx : node γ = some x) (hy : node δ = some y)
    (hadm : g.Admits x y) : Tracks live (g.insertEdge x y).2 (c.addWait signal event) node := by
  obtain ⟨-, hcontains, hedge⟩ := Graph.insertEdge_of_admits h.sound hadm
  refine h.insert hx (h.sound.insertEdge x y) hcontains hedge (c.addWait_current signal event)
    (c.addWait_started signal event) fun α β => ?_
  have hβ : node β = some y ↔ β = δ := ⟨fun hβ => h.node_inj hβ hy, fun e => e ▸ hy⟩
  rw [Chronicle.addWait, hγ, hδ, List.mem_cons, Prod.mk.injEq, hβ, or_comm]

/-- An edge to a node that stands for no generation is no wait of the chronicle. -/
theorem insertEdge_of_anonymous (h : Tracks live g c node) (hx : node γ = some x)
    (hy : g.contains y = true) (hanon : ∀ δ, node δ ≠ some y) :
    Tracks live (g.insertEdge x y).2 c node := by
  obtain ⟨-, hcontains, hedge⟩ :=
    Graph.insertEdge_of_admits h.sound (h.admits_of_anonymous hx hy hanon)
  refine h.insert hx (h.sound.insertEdge x y) hcontains hedge rfl rfl fun α β => ?_
  rw [or_iff_left fun hαβ => hanon β hαβ.2]

end Tracks

namespace Monitor

/-- The monitor's live events and graph are those of the chronicle. -/
def Agrees (m : Monitor) (c : Chronicle EventHandle) : Prop := ∃ node, Tracks m.live m.graph c node

variable {m : Monitor} {c : Chronicle EventHandle} {s : Submission} {signal event : EventHandle}
  {node : Nat → Option NodeId} {waiter : NodeId} {δ : Nat} {waits : List EventHandle}

/-! ## Submissions -/

/-- A submission has no node only if the event that it signals is not live. -/
theorem claimNode_eq_error {violation : Violation} (h : m.claimNode s = .error violation) :
    ∃ event, s.signal = some event ∧ m.live.signalNode? event m.graph = none ∧
      violation = .unknownSignalEvent s.operation.entryPoint event := by
  rw [claimNode] at h
  split at h
  · cases h
  · next event hsome =>
    split at h
    · next hnone =>
      cases h
      exact ⟨event, hsome, hnone, rfl⟩
    · cases h

/-- An event that is not live cannot be signaled. -/
theorem claimNode_of_unknown (hsignal : s.signal = some signal)
    (hdead : m.live.contains signal = false) :
    m.claimNode s = .error (.unknownSignalEvent s.operation.entryPoint signal) := by
  rw [claimNode, hsignal]
  simp only [LiveEvents.signalNode?_eq_none hdead]

/-- How the operation of a submission comes to its node.  An operation that signals nothing has a
new one.  One that signals an event shares the node of an earlier operation that signaled it, or
claims the placeholder that others wait on, or has a new node if nobody has referred to the event
yet. -/
inductive Claiming (m : Monitor) (s : Submission) : NodeId → Monitor → Prop
  | anonymous (hsignal : s.signal = none) :
    Claiming m s m.graph.addNode.1
      { m with graph := m.graph.addNode.2
               actions := m.actions.record m.graph.addNode.1 s.text none }
  | shared {event : EventHandle} {x : NodeId} (hsignal : s.signal = some event)
      (hb : m.live.binding? event = some (.bound x)) : Claiming m s x m
  | placeholder {event : EventHandle} {x : NodeId} (hsignal : s.signal = some event)
      (hb : m.live.binding? event = some (.pending x)) :
    Claiming m s x
      { m with live := m.live.bind event (.bound x)
               actions := m.actions.record x s.text (some event) }
  | first {event : EventHandle} (hsignal : s.signal = some event)
      (hb : m.live.binding? event = some .unassigned) :
    Claiming m s m.graph.addNode.1
      { m with live := m.live.bind event (.bound m.graph.addNode.1)
               graph := m.graph.addNode.2
               actions := m.actions.record m.graph.addNode.1 s.text (some event) }

/-- An operation comes to its node in one of four ways. -/
theorem claimNode_eq_ok_iff {m' : Monitor} :
    m.claimNode s = .ok (waiter, m') ↔ Claiming m s waiter m' := by
  constructor
  · intro h
    rw [claimNode] at h
    split at h
    · next hnone =>
      cases h
      exact .anonymous hnone
    · next event hsome =>
      split at h
      · cases h
      · next hsignal =>
        cases h
        rcases LiveEvents.signalNode?_cases hsignal with
          ⟨hb, rfl, rfl, rfl⟩ | ⟨rfl, rfl, ⟨hb, rfl⟩ | ⟨hb, rfl, rfl⟩⟩
        · exact .shared hsome hb
        · exact .placeholder hsome hb
        · exact .first hsome hb
  · intro h
    cases h with
    | anonymous hsignal => rw [claimNode, hsignal]
    | shared hsignal hb =>
      rw [claimNode, hsignal]
      simp only [LiveEvents.signalNode?, hb]
      rfl
    | placeholder hsignal hb =>
      rw [claimNode, hsignal]
      simp only [LiveEvents.signalNode?, hb, if_true]
    | first hsignal hb =>
      rw [claimNode, hsignal]
      simp only [LiveEvents.signalNode?, hb, if_true]

/-- The event that an operation signals is bound at its node. -/
theorem Claiming.binding? {m' : Monitor} (h : Claiming m s waiter m') :
    ∀ signal ∈ s.signal, m'.binding? signal = some (.bound waiter) := by
  have hbind : ∀ (live : LiveEvents) (event : EventHandle),
      (live.bind event (.bound waiter)).binding? event = some (.bound waiter) := by
    intro live event
    rw [LiveEvents.binding?_bind, if_pos rfl]
  intro signal hs
  cases h with
  | anonymous hsignal =>
    rw [hsignal] at hs
    cases hs
  | shared hsignal hb =>
    rw [hsignal] at hs
    exact Option.some.inj hs ▸ hb
  | placeholder hsignal hb =>
    rw [hsignal] at hs
    exact Option.some.inj hs ▸ hbind _ _
  | first hsignal hb =>
    rw [hsignal] at hs
    exact Option.some.inj hs ▸ hbind _ _

/-- Coming to a node makes no event live and ends no life. -/
theorem Claiming.contains {m' : Monitor} (h : Claiming m s waiter m') (event : EventHandle) :
    m'.live.contains event = m.live.contains event := by
  have hbind : ∀ {other b b'}, m.live.binding? other = some b →
      (m.live.bind other b').contains event = m.live.contains event := by
    intro other b b' hb
    rw [LiveEvents.contains_bind]
    split
    · next heq => exact heq ▸ (LiveEvents.contains_iff.2 ⟨b, hb⟩).symm
    · rfl
  cases h with
  | anonymous => rfl
  | shared => rfl
  | placeholder _ hb => exact hbind hb
  | first _ hb => exact hbind hb

/-- Only the event that the operation signals is bound. -/
theorem Claiming.binding?_of_not_mem {m' : Monitor} (h : Claiming m s waiter m')
    (hevent : event ∉ s.signal) : m'.binding? event = m.binding? event := by
  have hbind : ∀ {other b}, s.signal = some other →
      (m.live.bind other b).binding? event = m.live.binding? event := by
    intro other b hsignal
    rw [LiveEvents.binding?_bind, if_neg]
    rintro rfl
    exact hevent hsignal
  cases h with
  | anonymous => rfl
  | shared => rfl
  | placeholder hsignal => exact hbind hsignal
  | first hsignal => exact hbind hsignal

/-- Coming to a node adds no edges. -/
theorem Claiming.edge_iff {m' : Monitor} {x y : NodeId} (h : Claiming m s waiter m') :
    m'.graph.Edge x y ↔ m.graph.Edge x y := by
  cases h with
  | anonymous => exact Graph.edge_addNode
  | shared => exact Iff.rfl
  | placeholder => exact Iff.rfl
  | first => exact Graph.edge_addNode

/-- The operation has a new node if it signals nothing, or an event that no operation has referred
to. -/
theorem Claiming.nodeCount {m' : Monitor} (h : Claiming m s waiter m') :
    m'.graph.nodeCount = m.graph.nodeCount +
      if ∀ signal ∈ s.signal, m.binding? signal = some .unassigned then 1 else 0 := by
  cases h with
  | anonymous hsignal =>
    rw [if_pos (by simp [hsignal])]
    exact Graph.nodeCount_addNode _
  | shared hsignal hb => rw [if_neg (by simp [hsignal, Monitor.binding?, hb]), Nat.add_zero]
  | placeholder hsignal hb => rw [if_neg (by simp [hsignal, Monitor.binding?, hb]), Nat.add_zero]
  | first hsignal hb =>
    rw [if_pos (by simp [hsignal, Monitor.binding?, hb])]
    exact Graph.nodeCount_addNode _

/-- A wait on an event that is not live stops the waits. -/
theorem insertWaits_of_unknown (h : m.live.waitNode? event m.graph = none) :
    insertWaits s waiter m (event :: waits) =
      (.error (.unknownWaitEvent s.operation.entryPoint event), m) := by
  rw [insertWaits, h]

/-- A wait that is accepted leaves the rest to the other waits. -/
theorem insertWaits_of_accepted {signaler : NodeId} {live : LiveEvents} {graph : Graph}
    (h : m.live.waitNode? event m.graph = some (signaler, live, graph))
    (haccept : (graph.insertEdge signaler waiter).1 = true) :
    insertWaits s waiter m (event :: waits) =
      insertWaits s waiter
        { m with live, graph := (graph.insertEdge signaler waiter).2 } waits := by
  rw [insertWaits, h]
  simp only [haccept, if_true]

/-- A wait that is refused is the last one. -/
theorem insertWaits_of_refused {signaler : NodeId} {live : LiveEvents} {graph : Graph}
    (h : m.live.waitNode? event m.graph = some (signaler, live, graph))
    (hrefuse : (graph.insertEdge signaler waiter).1 = false) :
    insertWaits s waiter m (event :: waits) =
      let m' : Monitor := { m with live, graph := (graph.insertEdge signaler waiter).2 }
      (.error (.deadlock (m'.deadlockReport s event signaler waiter)), m') := by
  rw [insertWaits, h]
  simp only [hrefuse, Bool.false_eq_true, if_false]

/-- The dependencies of an operation that signals an event are those of the chronicle. -/
theorem insertWaits_agrees (h : Tracks m.live m.graph c node) (hδ : c.current signal = some δ)
    (hy : node δ = some waiter) (hlive : ∀ event ∈ waits, m.live.contains event = true) :
    (insertWaits s waiter m waits).1.refusal? = (c.awaitAll signal waits).1 ∧
      (insertWaits s waiter m waits).2.Agrees (c.awaitAll signal waits).2 := by
  induction waits generalizing m c node with
  | nil => exact ⟨rfl, node, h⟩
  | cons event waits ih =>
    obtain ⟨hevent, hlive⟩ := List.forall_mem_cons.1 hlive
    obtain ⟨γ, hγ⟩ := Option.isSome_iff_exists.1 (h.contains event ▸ hevent)
    obtain ⟨x, live, g, hwait, hr⟩ := LiveEvents.waitNode?_resolves (g := m.graph) hevent
    obtain ⟨node', h', hx, hold⟩ := h.resolve hγ hr
    have hy' : node' δ = some waiter := ((hold waiter (h.allocated hy)).2 δ).2 hy
    have hadm := h'.admits_iff hγ hδ hx hy'
    rw [Chronicle.awaitAll]
    by_cases hb : c.Blocks signal event
    · have hrefuse := Graph.insertEdge_of_not_admits h'.sound fun ha => hadm.1 ha hb
      rw [insertWaits_of_refused hwait (congrArg Prod.fst hrefuse), if_pos hb, hrefuse]
      exact ⟨rfl, node', h'⟩
    · have hadm := hadm.2 hb
      have haccept := (Graph.insertEdge_of_admits h'.sound hadm).1
      rw [insertWaits_of_accepted hwait haccept, if_neg hb]
      refine ih (h'.insertEdge hγ hδ hx hy' hadm) ?_ hy' fun other hother => ?_
      · rw [Chronicle.addWait_current, hδ]
      · rw [hr.contains]
        exact hlive other hother

/-- An operation that signals nothing may wait on anything. -/
theorem insertWaits_of_anonymous (h : Tracks m.live m.graph c node)
    (hy : m.graph.contains waiter = true) (hanon : ∀ δ, node δ ≠ some waiter)
    (hlive : ∀ event ∈ waits, m.live.contains event = true) :
    (insertWaits s waiter m waits).1 = .ok () ∧ (insertWaits s waiter m waits).2.Agrees c := by
  induction waits generalizing m node with
  | nil => exact ⟨rfl, node, h⟩
  | cons event waits ih =>
    obtain ⟨hevent, hlive⟩ := List.forall_mem_cons.1 hlive
    obtain ⟨γ, hγ⟩ := Option.isSome_iff_exists.1 (h.contains event ▸ hevent)
    obtain ⟨x, live, g, hwait, hr⟩ := LiveEvents.waitNode?_resolves (g := m.graph) hevent
    obtain ⟨node', h', hx, hold⟩ := h.resolve hγ hr
    obtain ⟨hy', hiff⟩ := hold waiter hy
    have hanon' : ∀ δ, node' δ ≠ some waiter := fun δ hδ => hanon δ ((hiff δ).1 hδ)
    obtain ⟨haccept, hcontains, -⟩ :=
      Graph.insertEdge_of_admits h'.sound (h'.admits_of_anonymous hx hy' hanon')
    rw [insertWaits_of_accepted hwait haccept]
    refine ih (h'.insertEdge_of_anonymous hx hy' hanon') ?_ hanon' fun other hother => ?_
    · rw [hcontains, hy']
    · rw [hr.contains]
      exact hlive other hother

/-- A submission is judged as the chronicle judges it. -/
theorem submit_agrees (h : m.Agrees c) (s : Submission) :
    (m.submit s).1.refusal? = (c.append s.signal s.waits).1 ∧
      (m.submit s).2.Agrees (c.append s.signal s.waits).2 := by
  obtain ⟨node, h⟩ := h
  have hfind : (s.waits.find? fun event => !m.live.contains event) =
      s.waits.find? fun event => (c.current event).isNone := by
    congr 1
    funext event
    rw [h.contains, Option.not_isSome]
  unfold submit Chronicle.append
  rw [← hfind]
  cases hnone : s.waits.find? fun event => !m.live.contains event with
  | some event => exact ⟨rfl, node, h⟩
  | none =>
    have hlive : ∀ event ∈ s.waits, m.live.contains event = true := by
      simpa using List.find?_eq_none.1 hnone
    unfold claimNode
    cases hsignal : s.signal with
    | none =>
      have hanon : ∀ δ, node δ ≠ some m.graph.addNode.1 := by
        intro δ hδ
        exact absurd (h.allocated hδ) m.graph.not_contains_new
      obtain ⟨hok, hagrees⟩ := insertWaits_of_anonymous
        (m := { m with graph := m.graph.addNode.2,
                       actions := m.actions.record m.graph.addNode.1 s.text none })
        (s := s) h.addNode (Graph.contains_addNode.2 (Or.inr rfl)) hanon hlive
      exact ⟨congrArg Verdict.refusal? hok, hagrees⟩
    | some signal =>
      cases hcontains : m.live.contains signal with
      | false =>
        have hcurrent : (c.current signal).isNone = true := by
          rw [← Option.not_isSome, ← h.contains, hcontains, Bool.not_false]
        simp only [LiveEvents.signalNode?_eq_none hcontains, hcurrent, if_true]
        exact ⟨rfl, node, h⟩
      | true =>
        obtain ⟨δ, hδ⟩ := Option.isSome_iff_exists.1 (h.contains signal ▸ hcontains)
        obtain ⟨y, claimed, live, g, hclaim, hr⟩ :=
          LiveEvents.signalNode?_resolves (g := m.graph) hcontains
        obtain ⟨node', h', hy, -⟩ := h.resolve hδ hr
        simp only [hclaim, hδ, Option.isNone_some]
        refine insertWaits_agrees (m := { m with live, graph := g, actions := _ }) h' hδ hy ?_
        intro event hevent
        rw [hr.contains]
        exact hlive event hevent

/-! ## Notices -/

/-- A monitor that was told nothing agrees with the empty chronicle. -/
theorem agrees_fresh (settings : MonitorSettings) : (fresh settings).Agrees {} := ⟨_, .empty⟩

/-- A monitor answers every notice as the chronicle does. -/
theorem notify_agrees (h : m.Agrees c) (notice : Notice) :
    (Observer.notify m notice).verdict.refusal? = (c.heed notice).1 ∧
      (Observer.notify m notice).state.Agrees (c.heed notice).2 := by
  cases notice with
  | created event => exact ⟨rfl, h.imp fun _ h => h.create event⟩
  | destroyed event => exact ⟨rfl, h.imp fun _ h => h.destroy event⟩
  | hostReset event => exact ⟨rfl, h.imp fun _ h => h.reset event⟩
  | submitted s => exact submit_agrees h s

/-- The monitor after notices, whatever it answered to them. -/
def afterAll (m : Monitor) (notices : List Notice) : Monitor :=
  notices.foldl (fun m notice => (Observer.notify m notice).state) m

/-- The verdicts on notices, one after the other. -/
def verdicts (m : Monitor) : List Notice → List Verdict
  | [] => []
  | notice :: notices =>
    let reply := Observer.notify m notice
    reply.verdict :: reply.state.verdicts notices

theorem length_verdicts (m : Monitor) (notices : List Notice) :
    (m.verdicts notices).length = notices.length := by
  induction notices generalizing m with
  | nil => rfl
  | cons notice notices ih => exact congrArg (· + 1) (ih _)

/-- Later verdicts come from the state after the earlier notices. -/
theorem verdicts_append (m : Monitor) (before after : List Notice) :
    m.verdicts (before ++ after) = m.verdicts before ++ (m.afterAll before).verdicts after := by
  induction before generalizing m with
  | nil => rfl
  | cons notice before ih => exact congrArg (List.cons _) (ih _)

theorem afterAll_append (m : Monitor) (before after : List Notice) :
    m.afterAll (before ++ after) = (m.afterAll before).afterAll after :=
  List.foldl_append

/-- Every run of a monitor has its chronicle. -/
theorem afterAll_agrees (h : m.Agrees c) (notices : List Notice) :
    ∃ c', (m.afterAll notices).Agrees c' := by
  induction notices generalizing m c with
  | nil => exact ⟨c, h⟩
  | cons notice notices ih => exact ih (notify_agrees h notice).2

end Monitor

end WaitFor
