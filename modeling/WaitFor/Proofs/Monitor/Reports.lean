import WaitFor.Proofs.Graph.Breadth
import WaitFor.Proofs.Monitor.Coherence
import WaitFor.Proofs.Monitor.Deadlock

/-! # Deadlock reports

A wait is refused at a bound event whose node the waiting operation already leads to.  So the search
for the existing path succeeds, and each node on the path has an operation that signals an event:
the first ones since something waits for them, the last since its event is bound.

`DeadlockReport.Faithful` says what a report shows of the state that it was made in.  The settings
decide only how much of the path is shown. -/

namespace WaitFor

open Relation

/-- What the report of a refused submission says of the monitor, which leaves its refused wait out;
`nodes` is the whole existing path. -/
structure DeadlockReport.Faithful (report : DeadlockReport) (m : Monitor) (s : Submission)
    (nodes : List NodeId) : Prop where
  found : ∀ maxLength, m.graph.shortestPath? report.waiter.node report.signaler.node maxLength =
    some (.ofNodes nodes maxLength)
  isChain : nodes.IsChain fun x y => m.graph.hasEdge x y = true
  head? : nodes.head? = some report.waiter.node
  getLast? : nodes.getLast? = some report.signaler.node
  shortest : ∀ other : List NodeId, (other.IsChain fun x y => m.graph.hasEdge x y = true) →
    other.head? = some report.waiter.node → other.getLast? = some report.signaler.node →
      nodes.length ≤ other.length
  own_signal : s.signal = some report.waitEvent → nodes = [report.waiter.node]
  path : report.path = (nodes.take m.settings.maxPathLength).map m.actions.summary
  truncated : report.truncated = true ↔ m.settings.maxPathLength < nodes.length
  waiter_text : report.waiter.description = s.text
  waiter_signal : report.waiter.signal = s.signal
  waiter_bound : ∃ signal, s.signal = some signal ∧
    m.binding? signal = some (.bound report.waiter.node)
  signaler_bound : m.binding? report.waitEvent = some (.bound report.signaler.node)
  signaler_summary : report.signaler = m.actions.summary report.signaler.node
  signaler_signal : report.signaler.signal = some report.waitEvent
  recorded : ∀ x ∈ nodes, ∃ act signal, m.actions.get? x = some act ∧ act.signal = some signal

/-- The report without the part that depends on the settings. -/
def DeadlockReport.withoutPath (report : DeadlockReport) : DeadlockReport :=
  { report with path := [], truncated := false }

/-- The violation without the path of its report. -/
def Violation.withoutPath : Violation → Violation
  | deadlock report => deadlock report.withoutPath
  | violation => violation

/-- The verdict without the path of its report. -/
def Verdict.withoutPath (verdict : Verdict) : Verdict := verdict.mapError Violation.withoutPath

namespace Monitor

variable {m : Monitor} {s : Submission} {waiter signaler : NodeId} {event : EventHandle}
  {report : DeadlockReport}

/-! ## Where a wait is refused -/

/-- A submission is refused with a report on the state after it, for a bound event and an edge that
closes a cycle there. -/
theorem Coherent.submit_refused (h : m.Coherent)
    (hrefused : (m.submit s).1 = .error (.deadlock report)) :
    ∃ event signaler waiter,
      (∃ act, (m.submit s).2.actions.get? waiter = some act ∧ act.signal = s.signal) ∧
        (∀ signal ∈ s.signal, (m.submit s).2.binding? signal = some (.bound waiter)) ∧
          (m.submit s).2.binding? event = some (.bound signaler) ∧
            report = (m.submit s).2.deadlockReport s event signaler waiter ∧
              ¬ (m.submit s).2.graph.Admits signaler waiter := by
  unfold Monitor.submit at hrefused ⊢
  split at hrefused
  · cases hrefused
  · split at hrefused
    · next violation hclaim =>
      obtain ⟨event, -, -, rfl⟩ := claimNode_eq_error hclaim
      cases hrefused
    · next waiter m' hclaim =>
      obtain ⟨hcoherent, ⟨act, hact, hsignal⟩, hbound⟩ := h.claimNode hclaim
      obtain ⟨-, hactions, hkept, hreport⟩ :=
        @Coherent.insertWaits m' s waiter s.waits hcoherent ⟨act, hact⟩
      obtain ⟨event, signaler, -, hevent, hreport, hadm⟩ := hreport report hrefused
      refine ⟨event, signaler, waiter, ⟨act, ?_, hsignal⟩, ?_, hevent, hreport, hadm⟩
      · rw [hactions, hact]
      · exact fun signal hs => hkept signal waiter (hbound signal hs)

/-- On the way to the node of a bound event, every operation signals an event. -/
theorem Coherent.signals_of_leads (h : m.Coherent)
    (hevent : m.binding? event = some (.bound signaler))
    {x : NodeId} (hx : ∃ act, m.actions.get? x = some act) (hleads : m.graph.Leads x signaler) :
    ∃ act signal, m.actions.get? x = some act ∧ act.signal = some signal := by
  obtain ⟨act, hact⟩ := hx
  have hsignal : act.signal.isSome = true := by
    rcases ReflTransGen.cases_head hleads with rfl | ⟨y, hxy, -⟩
    · exact h.claims.signals_of_node? (LiveEvents.node?_of_binding? hevent) hact
    · exact h.claims.source_signals hxy hact
  obtain ⟨signal, hsignal⟩ := Option.isSome_iff_exists.1 hsignal
  exact ⟨act, signal, hact, hsignal⟩

/-- What an operation leads to has a record. -/
theorem Coherent.recorded_of_leads (h : m.Coherent)
    (hwaiter : ∃ act, m.actions.get? waiter = some act) {x : NodeId}
    (hleads : m.graph.Leads waiter x) : ∃ act, m.actions.get? x = some act := by
  rcases ReflTransGen.cases_tail hleads with rfl | ⟨y, -, hyx⟩
  · exact hwaiter
  · exact h.claims.target_recorded hyx

/-- The report that is made when an edge is refused. -/
theorem Coherent.faithful (h : m.Coherent)
    (hwaiter : ∃ act, m.actions.get? waiter = some act ∧ act.signal = s.signal)
    (hbound : ∀ signal ∈ s.signal, m.binding? signal = some (.bound waiter))
    (hevent : m.binding? event = some (.bound signaler))
    (hadm : ¬ m.graph.Admits signaler waiter) :
    ∃ nodes, (m.deadlockReport s event signaler waiter).Faithful m s nodes := by
  obtain ⟨act, hact, hsignal⟩ := hwaiter
  have hedge : (fun x y => m.graph.hasEdge x y = true) = m.graph.Edge := by
    funext x y
    exact propext h.claims.sound.hasEdge_iff
  have hnode := LiveEvents.node?_of_binding? hevent
  have hcontains := h.claims.contains_of_record hact
  have hleads := Graph.leads_of_not_admits (h.claims.allocated hnode) hcontains hadm
  obtain ⟨nodes, -, hfound, hpath, hshort⟩ :=
    Graph.exists_shortestPath h.claims.sound hcontains hleads
  obtain ⟨signalerAct, hsact, hssignal⟩ := h.claims.bound hevent
  have hsummary : (m.actions.summary signaler).signal = some event := by
    rw [Actions.summary, hsact]
    exact hssignal
  have hreport : m.deadlockReport s event signaler waiter =
      { waitEvent := event
        signaler := m.actions.summary signaler
        waiter := ⟨waiter, s.text, s.signal⟩
        path := (nodes.take m.settings.maxPathLength).map m.actions.summary
        truncated := m.settings.maxPathLength < nodes.length } := by
    have hsigned : { m.actions.summary signaler with
        signal := (m.actions.summary signaler).signal <|> some event } =
          m.actions.summary signaler := by
      rw [hsummary, Option.orElse_eq_orElse, Option.orElse_some, ← hsummary]
    rw [deadlockReport, hfound, hsigned]
    rfl
  rw [hreport]
  obtain ⟨hchain, hhead, hlast⟩ := Path.iff_isChain.1 hpath
  refine ⟨nodes, hfound, hedge ▸ hchain, hhead, hlast, ?_, ?_, rfl, decide_eq_true_iff, rfl, rfl,
    ?_, hevent, rfl, hsummary, ?_⟩
  · intro other hchain hhead hlast
    exact hshort other (Path.of_isChain (hedge ▸ hchain) hhead hlast)
  · intro hown
    -- The event waited on is bound to the waiting operation itself.
    have hself : signaler = waiter := by
      have := (hbound event hown).symm.trans hevent
      exact (Binding.bound.inj (Option.some.inj this)).symm
    subst hself
    have hlength := hshort [signaler] .single
    rw [List.length_singleton] at hlength
    cases hpath with
    | single => rfl
    | concat hrest _ =>
      have := hrest.length_pos
      rw [List.length_append, List.length_singleton] at hlength
      omega
  · obtain ⟨signal, hsome⟩ : ∃ signal, s.signal = some signal := by
      obtain ⟨act', signal, hact', hsome⟩ := h.signals_of_leads hevent ⟨act, hact⟩ hleads
      cases hact.symm.trans hact'
      exact ⟨signal, hsignal ▸ hsome⟩
    exact ⟨signal, hsome, hbound signal hsome⟩
  · intro x hx
    obtain ⟨hwx, hxs⟩ := hpath.between hx
    exact h.signals_of_leads hevent (h.recorded_of_leads ⟨act, hact⟩ hwx) hxs

/-! ## Other settings -/

variable {waits : List EventHandle}

/-- The settings have no part in how an operation comes to its node. -/
theorem claimNode_settings (m : Monitor) (s : Submission) (settings : MonitorSettings) :
    ({ m with settings } : Monitor).claimNode s =
      (m.claimNode s).map fun r => (r.1, { r.2 with settings }) := by
  unfold claimNode
  split
  · rfl
  · dsimp only
    split <;> rfl

/-- Waits are judged alike whatever the settings, but for the path that is shown. -/
theorem insertWaits_settings (m : Monitor) (settings : MonitorSettings) :
    (insertWaits s waiter { m with settings } waits).2 =
        { (insertWaits s waiter m waits).2 with settings } ∧
      (insertWaits s waiter { m with settings } waits).1.withoutPath =
        (insertWaits s waiter m waits).1.withoutPath := by
  induction waits generalizing m with
  | nil => exact ⟨rfl, rfl⟩
  | cons event waits ih =>
    cases hwait : m.live.waitNode? event m.graph with
    | none =>
      have hwait' : ({ m with settings } : Monitor).live.waitNode? event m.graph = none := hwait
      rw [insertWaits_of_unknown hwait, insertWaits_of_unknown hwait']
      exact ⟨rfl, rfl⟩
    | some found =>
      obtain ⟨signaler, live, graph⟩ := found
      have hwait' : ({ m with settings } : Monitor).live.waitNode? event m.graph =
          some (signaler, live, graph) := hwait
      cases haccept : (graph.insertEdge signaler waiter).1 with
      | false =>
        rw [insertWaits_of_refused hwait haccept, insertWaits_of_refused hwait' haccept]
        exact ⟨rfl, rfl⟩
      | true =>
        rw [insertWaits_of_accepted hwait haccept, insertWaits_of_accepted hwait' haccept]
        exact ih { m with live, graph := (graph.insertEdge signaler waiter).2 }

/-- The settings change nothing of a step but how much of a path is shown. -/
theorem notify_settings (m : Monitor) (settings : MonitorSettings) (notice : Notice) :
    (Observer.notify { m with settings } notice).state =
        { (Observer.notify m notice).state with settings } ∧
      (Observer.notify { m with settings } notice).verdict.withoutPath =
        (Observer.notify m notice).verdict.withoutPath := by
  cases notice with
  | submitted s =>
    show (submit { m with settings } s).2 = { (m.submit s).2 with settings } ∧
      (submit { m with settings } s).1.withoutPath = (m.submit s).1.withoutPath
    rw [submit, submit, claimNode_settings]
    cases s.waits.find? fun event => !m.live.contains event with
    | some event => exact ⟨rfl, rfl⟩
    | none =>
      cases m.claimNode s with
      | error violation => exact ⟨rfl, rfl⟩
      | ok r => exact insertWaits_settings r.2 settings
  | _ => exact ⟨rfl, rfl⟩

end Monitor

end WaitFor
