import WaitFor.Proofs.Monitor.Relabeling

/-! # Events that are not used again

What a monitor was told of the life of an event matters only to notices that mention the event: they
alone look at its binding.  Its node and the edges there stay when it is destroyed, so whatever
waited for it still does.

`LiveEvents.SameBut` relates two monitors that differ in one binding; a notice that does not mention
the event is answered alike by both, and they differ in that binding still (`notify_sameBut`).
-/

namespace WaitFor

variable {event other : EventHandle}

/-- The same events are bound in the same way, but for one event. -/
def LiveEvents.SameBut (event : EventHandle) (live live' : LiveEvents) : Prop :=
  ∀ other, other ≠ event → live'.binding? other = live.binding? other

namespace LiveEvents.SameBut

variable {live live' live'' : LiveEvents}

theorem refl (event : EventHandle) (live : LiveEvents) : SameBut event live live :=
  fun _ _ => rfl

theorem trans (h : SameBut event live live') (h' : SameBut event live' live'') :
    SameBut event live live'' :=
  fun other hother => (h' other hother).trans (h other hother)

/-- The other events are live alike. -/
theorem contains (h : SameBut event live live') (hother : other ≠ event) :
    live'.contains other = live.contains other :=
  congrArg Option.isSome (h other hother)

/-- Binding the same event on both sides. -/
theorem bind (h : SameBut event live live') (other : EventHandle) (b : Binding) :
    SameBut event (live.bind other b) (live'.bind other b) := by
  intro third hthird
  rw [binding?_bind, binding?_bind, h third hthird]

/-- Destroying an event in both keeps all others alike. -/
theorem destroy (h : SameBut event live live') (other : EventHandle) :
    SameBut event (live.destroy other).2 (live'.destroy other).2 := by
  intro third hthird
  rw [binding?_destroy, binding?_destroy, h third hthird]

/-- Binding the one event, on one side only. -/
theorem bind_self (live : LiveEvents) (event : EventHandle) (b : Binding) :
    SameBut event live (live.bind event b) :=
  fun _ hother => binding?_bind_of_ne hother.symm b

/-- Destroying the event itself changes no other. -/
theorem destroy_self (live : LiveEvents) (event : EventHandle) :
    SameBut event live (live.destroy event).2 := by
  intro other hother
  rw [binding?_destroy, if_neg hother.symm]

end LiveEvents.SameBut

namespace Monitor

variable {m m₁ : Monitor} {live : LiveEvents} {s : Submission} {waiter signaler : NodeId}
  {waits : List EventHandle} {notice : Notice} {notices : List Notice}

/-! ## Notices that do not mention the event -/

/-- The operation of a submission comes to the same node. -/
theorem Claiming.sameBut (hlive : LiveEvents.SameBut event m.live live) (hsignal : event ∉ s.signal)
    (hclaim : Claiming m s waiter m₁) :
    ∃ live₁, Claiming { m with live } s waiter { m₁ with live := live₁ } ∧
      LiveEvents.SameBut event m₁.live live₁ := by
  have hb : ∀ {signal b}, s.signal = some signal → m.live.binding? signal = some b →
      live.binding? signal = some b := by
    intro signal b hs hb
    rw [hlive signal, hb]
    rintro rfl
    exact hsignal hs
  cases hclaim with
  | anonymous hs => exact ⟨live, .anonymous hs, hlive⟩
  | shared hs hbound => exact ⟨live, .shared hs (hb hs hbound), hlive⟩
  | placeholder hs hpending => exact ⟨_, .placeholder hs (hb hs hpending), hlive.bind _ _⟩
  | first hs hunassigned => exact ⟨_, .first hs (hb hs hunassigned), hlive.bind _ _⟩

/-- The node to wait for is the same, and so is the graph. -/
theorem waitNode?_sameBut {graph : Graph} {live₁ : LiveEvents}
    (hlive : LiveEvents.SameBut event m.live live) (hother : other ≠ event)
    (hwait : m.live.waitNode? other m.graph = some (signaler, live₁, graph)) :
    ∃ live₁', live.waitNode? other m.graph = some (signaler, live₁', graph) ∧
      LiveEvents.SameBut event live₁ live₁' := by
  have hb := hlive other hother
  rcases LiveEvents.waitNode?_cases hwait with
    ⟨hbinding | hbinding, rfl, rfl⟩ | ⟨hbinding, rfl, rfl, rfl⟩
  · exact ⟨live, by rw [LiveEvents.waitNode?, hb, hbinding], hlive⟩
  · exact ⟨live, by rw [LiveEvents.waitNode?, hb, hbinding], hlive⟩
  · exact ⟨_, by rw [LiveEvents.waitNode?, hb, hbinding], hlive.bind other _⟩

/-- The waits of an operation are judged alike. -/
theorem insertWaits_sameBut (hlive : LiveEvents.SameBut event m.live live)
    (hwaits : event ∉ waits) :
    let r := insertWaits s waiter m waits
    ∃ live₁, insertWaits s waiter { m with live } waits = (r.1, { r.2 with live := live₁ }) ∧
      LiveEvents.SameBut event r.2.live live₁ := by
  induction waits generalizing m live with
  | nil => exact ⟨live, rfl, hlive⟩
  | cons other waits ih =>
    rw [List.mem_cons, not_or] at hwaits
    obtain ⟨hother, hwaits⟩ := hwaits
    cases hwait : m.live.waitNode? other m.graph with
    | none =>
      have hwait' : live.waitNode? other m.graph = none := by
        rw [LiveEvents.waitNode?_eq_none_iff] at hwait ⊢
        rw [hlive.contains (Ne.symm hother), hwait]
      rw [insertWaits_of_unknown hwait, insertWaits_of_unknown (m := { m with live }) hwait']
      exact ⟨live, rfl, hlive⟩
    | some found =>
      obtain ⟨signaler, live₁, graph⟩ := found
      obtain ⟨live₁', hwait', hlive₁⟩ := waitNode?_sameBut hlive (Ne.symm hother) hwait
      cases haccept : (graph.insertEdge signaler waiter).1 with
      | false =>
        rw [insertWaits_of_refused hwait haccept,
          insertWaits_of_refused (m := { m with live }) hwait' haccept]
        exact ⟨live₁', rfl, hlive₁⟩
      | true =>
        rw [insertWaits_of_accepted hwait haccept,
          insertWaits_of_accepted (m := { m with live }) hwait' haccept]
        exact ih (m := { m with live := live₁, graph := (graph.insertEdge signaler waiter).2 })
          hlive₁ hwaits

/-- A submission is judged alike. -/
theorem submit_sameBut (hlive : LiveEvents.SameBut event m.live live) (hsignal : event ∉ s.signal)
    (hwaits : event ∉ s.waits) :
    let r := m.submit s
    ∃ live₁, ({ m with live } : Monitor).submit s = (r.1, { r.2 with live := live₁ }) ∧
      LiveEvents.SameBut event r.2.live live₁ := by
  have hfind : (s.waits.find? fun other => !live.contains other) =
      s.waits.find? fun other => !m.live.contains other := by
    refine List.find?_congr fun other hmem => ?_
    rw [hlive.contains]
    rintro rfl
    exact hwaits hmem
  rw [submit, submit, hfind]
  cases s.waits.find? fun other => !m.live.contains other with
  | some other => exact ⟨live, rfl, hlive⟩
  | none =>
    cases hclaim : m.claimNode s with
    | error violation =>
      obtain ⟨signal, hs, hnone, rfl⟩ := claimNode_eq_error hclaim
      have hdead : live.contains signal = false := by
        rw [hlive.contains, LiveEvents.signalNode?_eq_none_iff.1 hnone]
        rintro rfl
        exact hsignal hs
      rw [claimNode_of_unknown (m := { m with live }) hs hdead]
      exact ⟨live, rfl, hlive⟩
    | ok claimed =>
      obtain ⟨live₁, hclaim', hlive₁⟩ :=
        Claiming.sameBut hlive hsignal (claimNode_eq_ok_iff.1 hclaim)
      rw [claimNode_eq_ok_iff.2 hclaim']
      exact insertWaits_sameBut hlive₁ hwaits

/-- A notice that does not mention the event is answered alike. -/
theorem notify_sameBut (hlive : LiveEvents.SameBut event m.live live)
    (hevent : event ∉ notice.events) :
    let r := Observer.notify m notice
    ∃ live₁, Observer.notify { m with live } notice =
        { r with state := { r.state with live := live₁ } } ∧
      LiveEvents.SameBut event r.state.live live₁ := by
  cases notice with
  | created other => exact ⟨_, rfl, hlive.bind other .unassigned⟩
  | destroyed other => exact ⟨_, rfl, hlive.destroy other⟩
  | hostReset other =>
    refine ⟨(live.reset other).2, rfl, ?_⟩
    show LiveEvents.SameBut event (m.live.reset other).2 (live.reset other).2
    have hother : other ≠ event := (List.ne_of_not_mem_cons hevent).symm
    rw [LiveEvents.reset, LiveEvents.reset, hlive.contains hother]
    split
    · exact hlive.bind other .unassigned
    · exact hlive
  | submitted s =>
    have hsignal : event ∉ s.signal :=
      fun hmem => hevent (List.mem_append_left _ (Option.mem_toList.2 hmem))
    have hwaits : event ∉ s.waits := fun hmem => hevent (List.mem_append_right _ hmem)
    obtain ⟨live₁, hsubmit, hlive₁⟩ := submit_sameBut hlive hsignal hwaits
    refine ⟨live₁, ?_, hlive₁⟩
    simp only [Observer.notify, step, hsubmit]

/-- A run that does not mention the event is answered alike. -/
theorem run_sameBut (hlive : LiveEvents.SameBut event m.live live)
    (hnotices : ∀ notice ∈ notices, event ∉ notice.events) :
    ({ m with live } : Monitor).verdicts notices = m.verdicts notices ∧
      ∃ live₁, ({ m with live } : Monitor).afterAll notices =
          { m.afterAll notices with live := live₁ } ∧
        LiveEvents.SameBut event (m.afterAll notices).live live₁ := by
  induction notices generalizing m live with
  | nil => exact ⟨rfl, live, rfl, hlive⟩
  | cons notice notices ih =>
    obtain ⟨hnotice, hnotices⟩ := List.forall_mem_cons.1 hnotices
    obtain ⟨live₁, hnotify, hlive₁⟩ := notify_sameBut hlive hnotice
    obtain ⟨hverdicts, hlast⟩ := ih hlive₁ hnotices
    rw [verdicts, verdicts, hnotify]
    refine ⟨congrArg (List.cons _) hverdicts, ?_⟩
    show ∃ live₂,
      (Observer.notify ({ m with live } : Monitor) notice).state.afterAll notices = _ ∧ _
    rw [hnotify]
    exact hlast

/-! ## Notices about the life of the event -/

/-- What may happen to an event beside submissions. -/
def lifeOf (event : EventHandle) : List Notice :=
  [.created event, .destroyed event, .hostReset event]

/-- The life of an event has no influence on anything but its own binding. -/
theorem notify_lifeOf (hnotice : notice ∈ lifeOf event) :
    ∃ live, Observer.notify m notice = { state := { m with live }, verdict := .ok () } ∧
      LiveEvents.SameBut event m.live live := by
  rw [lifeOf, List.mem_cons, List.mem_cons, List.mem_singleton] at hnotice
  rcases hnotice with rfl | rfl | rfl
  · exact ⟨_, rfl, .bind_self m.live event .unassigned⟩
  · exact ⟨_, rfl, .destroy_self m.live event⟩
  · refine ⟨(m.live.reset event).2, rfl, ?_⟩
    rw [LiveEvents.reset]
    split
    · exact .bind_self m.live event .unassigned
    · exact .refl event m.live

/-- Notices of the life of one event are accepted, and change no other. -/
theorem run_lifeOf (hnotices : ∀ notice ∈ notices, notice ∈ lifeOf event) :
    m.verdicts notices = List.replicate notices.length (.ok ()) ∧
      ∃ live, m.afterAll notices = { m with live } ∧ LiveEvents.SameBut event m.live live := by
  induction notices generalizing m with
  | nil => exact ⟨rfl, m.live, rfl, .refl event m.live⟩
  | cons notice notices ih =>
    obtain ⟨hnotice, hnotices⟩ := List.forall_mem_cons.1 hnotices
    obtain ⟨live, hnotify, hlive⟩ := notify_lifeOf (m := m) hnotice
    obtain ⟨hverdicts, live', hlast, hlive'⟩ := ih (m := { m with live }) hnotices
    rw [verdicts, hnotify, List.length_cons, List.replicate_succ]
    refine ⟨congrArg (List.cons _) hverdicts, live', ?_, hlive.trans hlive'⟩
    show (Observer.notify m notice).state.afterAll notices = _
    rw [hnotify]
    exact hlast

/-- At any moment of a run an event that the rest of the run does not mention may be created,
destroyed and reset as often as one likes.  The rest of the run gets the same verdicts and leads to
the same graph, the same records and the same bindings of all other events. -/
theorem unused_event_has_no_influence (settings : MonitorSettings)
    (before life later : List Notice) (event : EventHandle)
    (hlife : ∀ notice ∈ life, notice ∈ lifeOf event)
    (hlater : ∀ notice ∈ later, event ∉ notice.events) :
    let m := fresh settings
    let verdicts := m.verdicts (before ++ later)
    m.verdicts (before ++ life ++ later) =
        verdicts.take before.length ++ List.replicate life.length (.ok ()) ++
          verdicts.drop before.length ∧
      (m.afterAll (before ++ life ++ later)).graph = (m.afterAll (before ++ later)).graph ∧
      (m.afterAll (before ++ life ++ later)).actions = (m.afterAll (before ++ later)).actions ∧
      ∀ other, other ≠ event → (m.afterAll (before ++ life ++ later)).binding? other =
        (m.afterAll (before ++ later)).binding? other := by
  intro m verdicts
  obtain ⟨hokay, live, hmiddle, hlive⟩ := run_lifeOf (m := m.afterAll before) hlife
  obtain ⟨hverdicts, live', hlast, hlive'⟩ := run_sameBut hlive hlater
  have hlength : before.length = (m.verdicts before).length := (length_verdicts m before).symm
  refine ⟨?_, ?_⟩
  · simp only [verdicts, verdicts_append, afterAll_append]
    rw [hokay, hmiddle, hverdicts, hlength, List.take_left, List.drop_left]
  · rw [afterAll_append, afterAll_append, hmiddle, hlast, afterAll_append]
    exact ⟨rfl, rfl, hlive'⟩

/-- Three operations wait for one another in a line.  The event in the middle is destroyed and
created again, and the wait that closes the cycle is refused with the same report nevertheless. -/
theorem unused_event_has_no_influence_of_line :
    let m := fresh {}
    let before : List Notice := [.created ⟨1⟩, .created ⟨2⟩, .created ⟨3⟩,
      .submitted { operation := .barrier, signal := some ⟨1⟩ },
      .submitted { operation := .barrier, signal := some ⟨2⟩, waits := [⟨1⟩] },
      .submitted { operation := .barrier, signal := some ⟨3⟩, waits := [⟨2⟩] }]
    let life : List Notice := [.destroyed ⟨2⟩, .created ⟨2⟩]
    let later : List Notice :=
      [.submitted { operation := .barrier, signal := some ⟨1⟩, waits := [⟨3⟩] }]
    ∃ report, report.waitEvent = ⟨3⟩ ∧
      m.verdicts (before ++ later) =
        List.replicate 6 (.ok ()) ++ [.error (.deadlock report)] ∧
      m.verdicts (before ++ life ++ later) =
        List.replicate 8 (.ok ()) ++ [.error (.deadlock report)] := by
  intro m before life later
  have hbefore : m.verdicts before = List.replicate 6 (.ok ()) := by decide +kernel
  have hleads : (m.afterAll before).graph.Leads ⟨0⟩ ⟨2⟩ := by
    have hfirst : (m.afterAll before).graph.Edge ⟨0⟩ ⟨1⟩ :=
      List.mem_of_elem_eq_true (by decide +kernel)
    have hsecond : (m.afterAll before).graph.Edge ⟨1⟩ ⟨2⟩ :=
      List.mem_of_elem_eq_true (by decide +kernel)
    exact .head hfirst (.head hsecond (.refl _ _))
  obtain ⟨report, hreport, hevent⟩ : ∃ report,
      (m.afterAll before).verdicts later = [.error (.deadlock report)] ∧
        report.waitEvent = ⟨3⟩ := by
    obtain ⟨c, hagrees⟩ := afterAll_agrees (agrees_fresh {}) before
    obtain ⟨report, hreport, hevent⟩ := (verdict_eq_deadlock_iff hagrees
      (s := { operation := .barrier, signal := some ⟨1⟩, waits := [⟨3⟩] })
      (by decide +kernel) (by decide +kernel) ⟨3⟩).2
      ⟨⟨⟨1⟩, rfl, Or.inr ⟨⟨0⟩, ⟨2⟩, by decide +kernel, by decide +kernel, hleads⟩⟩,
        [], [], rfl, nofun⟩
    exact ⟨report, congrArg ([·]) hreport, hevent⟩
  have hrun : m.verdicts (before ++ later) =
      List.replicate 6 (.ok ()) ++ [.error (.deadlock report)] := by
    rw [verdicts_append, hbefore, hreport]
  obtain ⟨hverdicts, -⟩ := unused_event_has_no_influence {} before life later ⟨2⟩
    (by decide) (by decide)
  refine ⟨report, hevent, hrun, hverdicts.trans ?_⟩
  rw [hrun]
  rfl

end Monitor

end WaitFor
