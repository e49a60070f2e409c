import WaitFor.Proofs.Monitor.Deadlock
import WaitFor.Proofs.Monitor.Waits

/-! # What a submission leaves behind

`Monitor.Effect` says exactly what an accepted submission changes.  A refused one is not taken back,
but all that it leaves is the effect of its waits before the refused one: the operation with these
waits alone is accepted and leads to the same live events and the same graph.

An operation that signals an event finds all of this in place when it is submitted again, so it gets
the same answer and changes nothing.
-/

namespace WaitFor.Monitor

variable {m m' : Monitor} {s : Submission} {waiter : NodeId} {signal : EventHandle}
  {report : DeadlockReport}

/-! ## The text of a submission -/

/-- Operations that signal the same come to the same node; beside the descriptions nothing is
recorded differently. -/
theorem Claiming.congr (h : Claiming m s waiter m') (s' : Submission)
    (hsignal : s'.signal = s.signal) :
    ∃ acts, Claiming m s' waiter { m' with actions := acts } ∧
      ∀ x, (acts.get? x).map Action.signal = (m'.actions.get? x).map Action.signal := by
  have hrecord : ∀ (node x : NodeId) (signal : Option EventHandle),
      ((m.actions.record node s'.text signal).get? x).map Action.signal =
        ((m.actions.record node s.text signal).get? x).map Action.signal := by
    intro node x signal
    rw [Actions.get?_record, Actions.get?_record]
    split <;> rfl
  cases h with
  | anonymous hs => exact ⟨_, .anonymous (hsignal.trans hs), fun x => hrecord _ x _⟩
  | shared hs hb => exact ⟨_, .shared (hsignal.trans hs) hb, fun x => rfl⟩
  | placeholder hs hb => exact ⟨_, .placeholder (hsignal.trans hs) hb, fun x => hrecord _ x _⟩
  | first hs hb => exact ⟨_, .first (hsignal.trans hs) hb, fun x => hrecord _ x _⟩

/-! ## Accepted submissions -/

/-- All that changes when the operation of a submission is accepted at the node `waiter`.  An
operation that signals an event has the node of that event, and any other a new one.  The new edges
lead from the nodes of the waits to the operation, one for each wait, and there is no way back.  The
new nodes are that of the operation and those of the other events without a node, and events that
the submission does not name are bound as before. -/
structure Effect (m : Monitor) (s : Submission) (waiter : NodeId) (m' : Monitor) : Prop where
  waiter_eq : s.signal = none → waiter = ⟨m.graph.nodeCount⟩
  nodeOf?_signal : ∀ signal ∈ s.signal, m'.nodeOf? signal = some waiter
  hasEdge_iff : ∀ x y, m'.graph.hasEdge x y = true ↔
    m.graph.hasEdge x y = true ∨ y = waiter ∧ ∃ event ∈ s.waits, m'.nodeOf? event = some x
  wait : ∀ event ∈ s.waits, ∃ x, m'.nodeOf? event = some x ∧
    m'.graph.hasEdge x waiter = true ∧ m'.graph.reaches waiter x = false
  nodeCount : m'.graph.nodeCount = m.graph.nodeCount +
    (if ∀ signal ∈ s.signal, m.binding? signal = some .unassigned then 1 else 0) +
    (s.waits.toFinset.filter fun event =>
      event ∉ s.signal ∧ m.binding? event = some .unassigned).card
  binding? : ∀ event, event ∉ s.signal → event ∉ s.waits → m'.binding? event = m.binding? event

namespace Coherent

/-- A submission of live events that is accepted has its effect and no other. -/
theorem effect (h : m.Coherent) (hvalid : m.Validates s) (hok : (m.submit s).1 = .ok ()) :
    ∃ waiter, Effect m s waiter (m.submit s).2 := by
  obtain ⟨waiter, m₁, hplaced⟩ := h.exists_placed hvalid
  have hclaim := hplaced.claiming
  rw [hplaced.submit] at hok ⊢
  generalize hresult : Monitor.insertWaits s waiter m₁ s.waits = result at hok ⊢
  obtain ⟨verdict, m'⟩ := result
  cases hok
  have hawaited := hplaced.coherent.awaited hplaced.recorded hresult
  have hsound := hawaited.coherent.claims.sound
  have hedge : ∀ x y, m'.graph.Edge x y ↔
      m.graph.Edge x y ∨ y = waiter ∧ ∃ event ∈ s.waits, m'.live.node? event = some x :=
    fun x y => (hawaited.edge_iff x y).trans (or_congr_left hclaim.edge_iff)
  refine ⟨waiter, ⟨fun hsignal => ?_, fun signal hsignal => ?_, fun x y => ?_,
    fun event hevent => ?_, ?_, fun event hsignal hwait => ?_⟩⟩
  · cases hclaim with
    | anonymous => rfl
    | shared hs => cases hsignal.symm.trans hs
    | placeholder hs => cases hsignal.symm.trans hs
    | first hs => cases hsignal.symm.trans hs
  · exact hawaited.node?_of_node?
      (LiveEvents.node?_of_binding? (hclaim.binding? signal hsignal))
  · rw [hsound.hasEdge_iff, h.claims.sound.hasEdge_iff]
    exact hedge x y
  · obtain ⟨x, hx⟩ := hawaited.node? event hevent
    have hxw : m'.graph.Edge x waiter := (hedge x waiter).2 (Or.inr ⟨rfl, event, hevent, hx⟩)
    exact ⟨x, hx, hsound.hasEdge_iff.2 hxw, hsound.reaches_eq_false hxw⟩
  · rw [hawaited.nodeCount, hclaim.nodeCount]
    congr 2
    refine Finset.filter_congr fun event _ => ?_
    by_cases hevent : event ∈ s.signal
    · rw [hclaim.binding? event hevent]
      simp [hevent]
    · rw [hclaim.binding?_of_not_mem hevent]
      simp [hevent]
  · rw [hawaited.binding? (Or.inl hwait), hclaim.binding?_of_not_mem hsignal]

/-! ## Refused submissions -/

/-- A refused submission leaves what the operation leaves with its waits before the refused one. -/
theorem submit_before_refused (h : m.Coherent) (hvalid : m.Validates s)
    (hrefused : (m.submit s).1 = .error (.deadlock report)) :
    ∃ before after, s.waits = before ++ report.waitEvent :: after ∧ report.waitEvent ∉ before ∧
      let r := m.submit { s with waits := before }
      r.1 = .ok () ∧ r.2.live = (m.submit s).2.live ∧ r.2.graph = (m.submit s).2.graph ∧
        ∀ x, (r.2.actions.get? x).map Action.signal =
          ((m.submit s).2.actions.get? x).map Action.signal := by
  obtain ⟨waiter, m₁, hplaced⟩ := h.exists_placed hvalid
  rw [hplaced.submit] at hrefused ⊢
  have hjudged := hplaced.coherent.judged (s := s) hplaced.recorded hplaced.contains
  generalize Monitor.insertWaits s waiter m₁ s.waits = result at hrefused hjudged ⊢
  cases hjudged with
  | accepted => cases hrefused
  | @refused m' before after event signaler hsplit hbefore hbound hadm =>
    cases hrefused
    have hawaited := hplaced.coherent.awaited hplaced.recorded hbefore
    refine ⟨before, after, hsplit, fun hmem => hadm ?_, ?_⟩
    · -- An earlier wait on the event would have left the edge.
      refine hawaited.coherent.claims.sound.admits_of_edge ?_
      exact (hawaited.edge_iff _ _).2
        (Or.inr ⟨rfl, event, hmem, LiveEvents.node?_of_binding? hbound⟩)
    · obtain ⟨acts, hclaim', hsignals⟩ := hplaced.claiming.congr { s with waits := before } rfl
      have hwaits : ∀ event ∈ before, m.live.contains event = true := by
        refine fun event hevent => hvalid.1 event ?_
        rw [hsplit]
        exact List.mem_append_left _ hevent
      intro r
      have hr : r = (.ok (), { m' with actions := acts }) :=
        (submit_of_claiming hwaits hclaim').trans (insertWaits_congr hbefore _ acts)
      rw [hr, hawaited.actions]
      exact ⟨rfl, rfl, rfl, hsignals⟩

/-! ## Submissions again -/

/-- An operation that signals an event finds its own effect when it is submitted again. -/
theorem submit_again (h : m.Coherent) (hsignal : s.signal = some signal) :
    (m.submit s).2.submit s = m.submit s := by
  by_cases hvalid : m.Validates s
  · obtain ⟨waiter, m₁, hplaced⟩ := h.exists_placed hvalid
    obtain ⟨before, after, -, hawaited⟩ :=
      hplaced.coherent.exists_awaited (s := s) hplaced.recorded hplaced.contains
    rw [hplaced.submit]
    -- The signaled event is bound by now, so the operation shares the node that it had before.
    have hbound : (Monitor.insertWaits s waiter m₁ s.waits).2.live.binding? signal =
        some (.bound waiter) :=
      (hplaced.coherent.insertWaits hplaced.recorded).2.2.1 signal waiter
        (hplaced.claiming.binding? signal hsignal)
    have hwaits : ∀ event ∈ s.waits,
        (Monitor.insertWaits s waiter m₁ s.waits).2.live.contains event = true :=
      fun event hevent => (hawaited.contains event).trans (hplaced.contains event hevent)
    rw [submit_of_claiming hwaits (.shared hsignal hbound)]
    exact hplaced.coherent.insertWaits_again hplaced.recorded hplaced.contains
  · obtain ⟨violation, hsubmit⟩ := submit_of_not_validates hvalid
    rw [hsubmit]
    exact hsubmit

end Coherent

/-! ## After any run -/

/-- After any run, a submission of live events is accepted and has its effect and no other, or it is
refused for one of its waits.  Then the operation with only the waits before that one is accepted,
and leads to the same live events, the same graph and the same recorded nodes. -/
theorem submission_effect (settings : MonitorSettings) (notices : List Notice) (s : Submission)
    (hwaits : ∀ event ∈ s.waits, ((fresh settings).afterAll notices).live.contains event = true)
    (hsignal : ∀ event ∈ s.signal, ((fresh settings).afterAll notices).live.contains event = true) :
    let m := (fresh settings).afterAll notices
    let r := Observer.notify m (.submitted s)
    (r.verdict = .ok () ∨ ∃ report, r.verdict = .error (.deadlock report)) ∧
      (r.verdict = .ok () → ∃ waiter, Effect m s waiter r.state) ∧
      ∀ report, r.verdict = .error (.deadlock report) →
        ∃ before after, s.waits = before ++ report.waitEvent :: after ∧
          report.waitEvent ∉ before ∧
          let r' := Observer.notify m (.submitted { s with waits := before })
          r'.verdict = .ok () ∧ r'.state.live = r.state.live ∧ r'.state.graph = r.state.graph ∧
            ∀ x, (r'.state.actions.get? x).map Action.signal =
              (r.state.actions.get? x).map Action.signal := by
  intro m r
  have h : m.Coherent := (Coherent.fresh settings).afterAll notices
  obtain ⟨c, hagrees⟩ := afterAll_agrees (agrees_fresh settings) notices
  exact ⟨verdict_ok_or_deadlock hagrees hwaits hsignal, h.effect ⟨hwaits, hsignal⟩,
    fun report => h.submit_before_refused ⟨hwaits, hsignal⟩⟩

/-- An operation waits on an event that was signaled, then on its own: the first wait stays. -/
theorem submission_effect_of_own_event :
    let m := (fresh {}).afterAll
      [.created ⟨1⟩, .created ⟨2⟩, .submitted { operation := .barrier, signal := some ⟨1⟩ }]
    let s : Submission := { operation := .barrier, signal := some ⟨2⟩, waits := [⟨1⟩, ⟨2⟩] }
    (∃ report, (Observer.notify m (.submitted s)).verdict = .error (.deadlock report)) ∧
      (Observer.notify m (.submitted { s with waits := [⟨1⟩] })).verdict = .ok () ∧
      (Observer.notify m (.submitted { s with waits := [⟨1⟩] })).state.graph =
        (Observer.notify m (.submitted s)).state.graph := by
  intro m s
  obtain ⟨-, -, hrefused⟩ := submission_effect {}
    [.created ⟨1⟩, .created ⟨2⟩, .submitted { operation := .barrier, signal := some ⟨1⟩ }] s
    (by decide +kernel) (by decide +kernel)
  have hrefusal : (Observer.notify m (.submitted s)).verdict.refusal? = some (.deadlock ⟨2⟩) := by
    decide +kernel
  obtain ⟨report, hreport, hevent⟩ := Verdict.refusal?_eq_deadlock.1 hrefusal
  obtain ⟨before, after, hsplit, -, hok, -, hgraph, -⟩ := hrefused report hreport
  have hsplit : [⟨1⟩] ++ ⟨2⟩ :: [] = before ++ report.waitEvent :: after := hsplit
  rw [hevent, List.append_cons_inj_of_notMem (by decide) (by decide)] at hsplit
  obtain ⟨rfl, -, -⟩ := hsplit
  exact ⟨⟨report, hreport⟩, hok, hgraph⟩

/-- After any run, an operation that signals an event and is submitted twice in a row is answered
alike both times, and the second time changes nothing. -/
theorem submitted_twice (settings : MonitorSettings) (notices : List Notice) (s : Submission)
    (signal : EventHandle) (hsignal : s.signal = some signal) :
    let r := Observer.notify ((fresh settings).afterAll notices) (.submitted s)
    Observer.notify r.state (.submitted s) = r := by
  intro r
  have hagain := ((Coherent.fresh settings).afterAll notices).submit_again hsignal
  simp only [r, Observer.notify, step, hagain]

/-- An operation that waits on its own event is refused the second time as the first time. -/
theorem submitted_twice_of_own_event :
    let r := Observer.notify ((fresh {}).afterAll [.created ⟨1⟩])
      (.submitted { operation := .barrier, signal := some ⟨1⟩, waits := [⟨1⟩] })
    r.verdict.refusal? = some (.deadlock ⟨1⟩) ∧
      Observer.notify r.state
        (.submitted { operation := .barrier, signal := some ⟨1⟩, waits := [⟨1⟩] }) = r := by
  intro r
  exact ⟨by decide +kernel, submitted_twice {} [.created ⟨1⟩]
    { operation := .barrier, signal := some ⟨1⟩, waits := [⟨1⟩] } ⟨1⟩ rfl⟩

end WaitFor.Monitor
