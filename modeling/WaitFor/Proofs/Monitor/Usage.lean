import WaitFor.Proofs.Events.Generations
import WaitFor.Proofs.Monitor.Growth

/-! # Usage errors

A submission that names an event which is not live is refused before anything is changed.  The waits
are looked at first, in order, then the signaled event; whoever passes (`Screened.passed`) can only
be refused for a deadlock, since no lookup after that fails.

Whether an event is live is told from the notices alone: from the last of them that created or
destroyed it.
-/

namespace WaitFor

/-- The violation that a verdict tells the caller of, if it tells of one. -/
def Verdict.violation? : Verdict → Option Violation
  | .ok () => none
  | .error violation => some violation

namespace Monitor

variable {m : Monitor} {s : Submission} {waiter : NodeId} {waits : List EventHandle}
  {notice : Notice} {notices : List Notice} {event : EventHandle} {name : String}

/-! ## Live events -/

/-- Of the notices that create or destroy the event, the last creates it. -/
def CreatedLast (notices : List Notice) (event : EventHandle) : Prop :=
  Latest (.created event) (.destroyed event) notices

instance (notices : List Notice) : DecidablePred (CreatedLast notices) :=
  fun _ => inferInstanceAs (Decidable (Latest _ _ _))

/-- Waits do not change which events are live. -/
theorem contains_insertWaits (event : EventHandle) :
    (insertWaits s waiter m waits).2.live.contains event = m.live.contains event := by
  induction waits generalizing m with
  | nil => rfl
  | cons other waits ih =>
    cases hwait : m.live.waitNode? other m.graph with
    | none => rw [insertWaits_of_unknown hwait]
    | some found =>
      obtain ⟨signaler, live, graph⟩ := found
      have hcontains := (LiveEvents.resolves_of_waitNode? hwait).contains event
      cases haccept : (graph.insertEdge signaler waiter).1 with
      | true =>
        rw [insertWaits_of_accepted hwait haccept, ih]
        exact hcontains
      | false =>
        rw [insertWaits_of_refused hwait haccept]
        exact hcontains

/-- Submissions do not change which events are live. -/
theorem contains_submit (event : EventHandle) :
    (m.submit s).2.live.contains event = m.live.contains event := by
  by_cases hvalid : m.Validates s
  · obtain ⟨waiter, m', hclaim⟩ := hvalid.exists_claiming
    rw [submit_of_claiming hvalid.1 hclaim, contains_insertWaits, hclaim.contains]
  · obtain ⟨violation, hsubmit⟩ := submit_of_not_validates hvalid
    rw [hsubmit]

/-- After a notice an event is live if the notice creates it, or if it was live and the notice does
not destroy it. -/
theorem contains_notify_iff : (Observer.notify m notice).state.live.contains event = true ↔
    notice = .created event ∨ notice ≠ .destroyed event ∧ m.live.contains event = true := by
  cases notice with
  | created other =>
    show (m.live.bind other .unassigned).contains event = true ↔ _
    rw [LiveEvents.contains_bind]
    simp
  | destroyed other =>
    show (m.live.destroy other).2.contains event = true ↔ _
    rw [LiveEvents.contains_destroy]
    simp
  | hostReset other =>
    show (m.live.reset other).2.contains event = true ↔ _
    rw [LiveEvents.reset]
    split
    · next hlive =>
      rw [LiveEvents.contains_bind]
      split
      · next heq => simpa using heq ▸ hlive
      · simp
    · simp
  | submitted s =>
    show (m.submit s).2.live.contains event = true ↔ _
    rw [contains_submit]
    simp

/-- The notices of a run tell which events are live after it. -/
theorem contains_afterAll_iff (settings : MonitorSettings) (notices : List Notice)
    (event : EventHandle) :
    ((fresh settings).afterAll notices).live.contains event = true ↔ CreatedLast notices event := by
  induction notices using List.reverseRecOn with
  | nil => exact iff_of_false Bool.false_ne_true nofun
  | append_singleton notices notice ih =>
    have hstep : (fresh settings).afterAll (notices ++ [notice]) =
        (Observer.notify ((fresh settings).afterAll notices) notice).state := List.foldl_concat ..
    rw [hstep, contains_notify_iff, CreatedLast, latest_concat_iff, ih, CreatedLast]

/-! ## Submissions -/

/-- Every lookup of a live event succeeds, so waits on live events can only close a cycle. -/
theorem insertWaits_ok_or_deadlock (s : Submission) (waiter : NodeId)
    (hlive : ∀ event ∈ waits, m.live.contains event = true) :
    (insertWaits s waiter m waits).1 = .ok () ∨
      ∃ report, (insertWaits s waiter m waits).1 = .error (.deadlock report) := by
  induction waits generalizing m with
  | nil => exact Or.inl rfl
  | cons event waits ih =>
    obtain ⟨hevent, hlive⟩ := List.forall_mem_cons.1 hlive
    obtain ⟨signaler, live, graph, hwait, hr⟩ := LiveEvents.waitNode?_resolves (g := m.graph) hevent
    cases haccept : (graph.insertEdge signaler waiter).1 with
    | true =>
      rw [insertWaits_of_accepted hwait haccept]
      apply ih
      intro other hother
      rw [hr.contains]
      exact hlive other hother
    | false =>
      rw [insertWaits_of_refused hwait haccept]
      exact Or.inr ⟨_, rfl⟩

/-- How a submission fares with the events that it names: it waits on one that is not live, or it
signals one that is not live, or all of them are live. -/
inductive Screened (m : Monitor) (s : Submission) : Verdict × Monitor → Prop
  | unknownWait {event : EventHandle}
      (hfind : (s.waits.find? fun event => !m.live.contains event) = some event) :
    Screened m s (.error (.unknownWaitEvent s.operation.entryPoint event), m)
  | unknownSignal {event : EventHandle}
      (hfind : (s.waits.find? fun event => !m.live.contains event) = none)
      (hsignal : s.signal = some event) (hdead : m.live.contains event = false) :
    Screened m s (.error (.unknownSignalEvent s.operation.entryPoint event), m)
  | passed {verdict : Verdict} {m' : Monitor} (hvalid : m.Validates s)
      (hverdict : verdict = .ok () ∨ ∃ report, verdict = .error (.deadlock report)) :
    Screened m s (verdict, m')

/-- All that can become of a submission. -/
theorem screened (m : Monitor) (s : Submission) : Screened m s (m.submit s) := by
  cases hfind : s.waits.find? fun event => !m.live.contains event with
  | some event =>
    rw [submit, hfind]
    exact .unknownWait hfind
  | none =>
    have hwaits : ∀ event ∈ s.waits, m.live.contains event = true := by
      simpa using List.find?_eq_none.1 hfind
    cases hclaim : m.claimNode s with
    | error violation =>
      obtain ⟨event, hsignal, hnone, rfl⟩ := claimNode_eq_error hclaim
      rw [submit, hfind, hclaim]
      exact .unknownSignal hfind hsignal (LiveEvents.signalNode?_eq_none_iff.1 hnone)
    | ok claimed =>
      have hclaim := claimNode_eq_ok_iff.1 hclaim
      rw [submit_of_claiming hwaits hclaim]
      refine .passed ⟨hwaits, fun event hsignal => ?_⟩
        (insertWaits_ok_or_deadlock _ _ fun event he => ?_)
      · rw [← hclaim.contains]
        exact LiveEvents.contains_iff.2 ⟨_, hclaim.binding? event hsignal⟩
      · rw [hclaim.contains]
        exact hwaits event he

/-- The first wait on an event that is not live is what a submission is refused for. -/
theorem submit_eq_unknownWait_iff :
    (m.submit s).1 = .error (.unknownWaitEvent name event) ↔
      name = s.operation.entryPoint ∧
        (s.waits.find? fun event => !m.live.contains event) = some event := by
  have hscreened := screened m s
  generalize m.submit s = result at hscreened ⊢
  cases hscreened with
  | unknownWait hfind =>
    simp only [hfind, Except.error.injEq, Violation.unknownWaitEvent.injEq, Option.some.injEq]
    exact and_congr_left fun _ => eq_comm
  | unknownSignal hfind => simp [hfind]
  | passed hvalid hverdict =>
    have hfind : (s.waits.find? fun event => !m.live.contains event) = none := by
      simpa using hvalid.1
    rcases hverdict with rfl | ⟨report, rfl⟩
    · simp [hfind]
    · simp [hfind]

/-- A signal of an event that is not live is what a submission is refused for if all waits are live.
-/
theorem submit_eq_unknownSignal_iff :
    (m.submit s).1 = .error (.unknownSignalEvent name event) ↔
      name = s.operation.entryPoint ∧ s.signal = some event ∧ m.live.contains event = false ∧
        ∀ other ∈ s.waits, m.live.contains other = true := by
  have hscreened := screened m s
  generalize m.submit s = result at hscreened ⊢
  cases hscreened with
  | @unknownWait other hfind =>
    refine iff_of_false nofun ?_
    rintro ⟨-, -, -, hwaits⟩
    have hother := hwaits other (List.mem_of_find?_eq_some hfind)
    have hdead := List.find?_some hfind
    rw [hother] at hdead
    cases hdead
  | @unknownSignal other hfind hsignal hdead =>
    have hwaits : ∀ event ∈ s.waits, m.live.contains event = true := by
      simpa using List.find?_eq_none.1 hfind
    simp only [Except.error.injEq, Violation.unknownSignalEvent.injEq, hsignal, Option.some.injEq]
    constructor
    · rintro ⟨rfl, rfl⟩
      exact ⟨rfl, rfl, hdead, hwaits⟩
    · rintro ⟨rfl, rfl, -⟩
      exact ⟨rfl, rfl⟩
  | passed hvalid hverdict =>
    refine iff_of_false ?_ ?_
    · rcases hverdict with rfl | ⟨report, rfl⟩ <;> nofun
    · rintro ⟨-, hsignal, hdead, -⟩
      rw [hvalid.2 event hsignal] at hdead
      cases hdead

/-- A usage error leaves everything as it was. -/
theorem submit_of_error {violation : Violation} (herror : (m.submit s).1 = .error violation)
    (husage : ∀ report, violation ≠ .deadlock report) : (m.submit s).2 = m := by
  have hscreened := screened m s
  generalize m.submit s = result at hscreened herror ⊢
  cases hscreened with
  | unknownWait => rfl
  | unknownSignal => rfl
  | passed _ hverdict =>
    rcases hverdict with rfl | ⟨report, rfl⟩
    · cases herror
    · cases herror
      exact absurd rfl (husage report)

/-! ## Reports -/

/-- All that is reported in a run, in order. -/
def reports (m : Monitor) : List Notice → List Violation
  | [] => []
  | notice :: notices =>
    let reply := Observer.notify m notice
    reply.reported ++ reply.state.reports notices

/-- What is reported is what the callers are told. -/
theorem reports_eq (m : Monitor) (notices : List Notice) :
    m.reports notices = (m.verdicts notices).filterMap Verdict.violation? := by
  induction notices generalizing m with
  | nil => rfl
  | cons notice notices ih =>
    have hreported : (Observer.notify m notice).reported =
        (Observer.notify m notice).verdict.violation?.toList := by
      dsimp only [Observer.notify]
      cases (m.step notice).1 with
      | ok => rfl
      | error violation => rfl
    rw [reports, verdicts, hreported, ih]
    cases hviolation : (Observer.notify m notice).verdict.violation? with
    | none => rw [List.filterMap_cons_none hviolation, Option.toList_none, List.nil_append]
    | some violation =>
      rw [List.filterMap_cons_some hviolation, Option.toList_some, List.singleton_append]

/-! ## After any run -/

/-- After any run, a submission is refused for an unknown wait if and only if one of its waits is on
an event whose last creation or destruction was not a creation, and then for the first such wait;
otherwise it is refused for an unknown signal if and only if that is such an event.  Either way the
monitor stays as it was.  Once the operation has come to its node, no wait is found unknown any
more.  What is reported over the run are the violations that the callers are told of, each once and
in order. -/
theorem usage_errors_exact (settings : MonitorSettings) (notices : List Notice) (s : Submission) :
    let m := (fresh settings).afterAll notices
    let r := Observer.notify m (.submitted s)
    ((∃ name event, r.verdict = .error (.unknownWaitEvent name event)) ↔
      ∃ event ∈ s.waits, ¬ CreatedLast notices event) ∧
    (∀ name event, r.verdict = .error (.unknownWaitEvent name event) ↔
      name = s.operation.entryPoint ∧ ∃ before after, s.waits = before ++ event :: after ∧
        ¬ CreatedLast notices event ∧ ∀ other ∈ before, CreatedLast notices other) ∧
    (∀ name event, r.verdict = .error (.unknownSignalEvent name event) ↔
      name = s.operation.entryPoint ∧ s.signal = some event ∧ ¬ CreatedLast notices event ∧
        ∀ other ∈ s.waits, CreatedLast notices other) ∧
    (∀ name event, r.verdict = .error (.unknownWaitEvent name event) ∨
      r.verdict = .error (.unknownSignalEvent name event) → r.state = m) ∧
    (∀ waiter m', (∀ event ∈ s.waits, CreatedLast notices event) →
      m.claimNode s = .ok (waiter, m') → ∀ name event,
        (insertWaits s waiter m' s.waits).1 ≠ .error (.unknownWaitEvent name event)) ∧
    (fresh settings).reports notices =
      ((fresh settings).verdicts notices).filterMap Verdict.violation? := by
  intro m r
  have hlive : ∀ event, m.live.contains event = true ↔ CreatedLast notices event :=
    contains_afterAll_iff settings notices
  have hdead : ∀ event, m.live.contains event = false ↔ ¬ CreatedLast notices event := by
    intro event
    rw [← hlive, Bool.not_eq_true]
  have hwait : ∀ name event, r.verdict = .error (.unknownWaitEvent name event) ↔ _ :=
    fun name event => submit_eq_unknownWait_iff
  refine ⟨⟨?_, ?_⟩, ?_, ?_, ?_, ?_, reports_eq _ _⟩
  · rintro ⟨name, event, hverdict⟩
    obtain ⟨-, hfind⟩ := (hwait name event).1 hverdict
    refine ⟨event, List.mem_of_find?_eq_some hfind, (hdead event).1 ?_⟩
    simpa using List.find?_some hfind
  · rintro ⟨event, hevent, hcreated⟩
    have hsome : (s.waits.find? fun event => !m.live.contains event).isSome = true := by
      rw [List.find?_isSome]
      exact ⟨event, hevent, by rw [(hdead event).2 hcreated]; rfl⟩
    obtain ⟨first, hfirst⟩ := Option.isSome_iff_exists.1 hsome
    exact ⟨_, first, (hwait _ first).2 ⟨rfl, hfirst⟩⟩
  · intro name event
    rw [hwait, List.find?_eq_some_iff_append]
    simp only [Bool.not_eq_true', hdead, Bool.not_eq_false', hlive]
    refine and_congr_right fun _ => ?_
    constructor
    · rintro ⟨hevent, before, after, hsplit, hbefore⟩
      exact ⟨before, after, hsplit, hevent, hbefore⟩
    · rintro ⟨before, after, hsplit, hevent, hbefore⟩
      exact ⟨hevent, before, after, hsplit, hbefore⟩
  · intro name event
    show (m.submit s).1 = _ ↔ _
    rw [submit_eq_unknownSignal_iff, hdead]
    simp only [hlive]
  · rintro name event (hverdict | hverdict)
    · exact submit_of_error hverdict nofun
    · exact submit_of_error hverdict nofun
  · intro waiter m' hwaits hclaim name event hverdict
    have hcontains := (claimNode_eq_ok_iff.1 hclaim).contains
    have hlive' : ∀ event ∈ s.waits, m'.live.contains event = true := by
      intro event hevent
      rw [hcontains, hlive]
      exact hwaits event hevent
    rcases insertWaits_ok_or_deadlock s waiter hlive' with hok | ⟨report, hreport⟩
    · cases hverdict.symm.trans hok
    · cases hverdict.symm.trans hreport

/-- An operation waits on its own event, then on one that was destroyed and one that never was: it
is refused for the second wait without a trace, and its own wait, which would close a cycle, is not
judged. -/
theorem usage_errors_exact_of_destroyed :
    let notices : List Notice := [.created ⟨1⟩, .created ⟨2⟩, .destroyed ⟨2⟩]
    let m := (fresh {}).afterAll notices
    let s : Submission :=
      { operation := .barrier, signal := some ⟨1⟩, waits := [⟨1⟩, ⟨2⟩, ⟨3⟩] }
    let r := Observer.notify m (.submitted s)
    r.verdict = .error (.unknownWaitEvent s.operation.entryPoint ⟨2⟩) ∧ r.state = m := by
  intro notices m s r
  obtain ⟨-, hwait, -, hkept, -⟩ := usage_errors_exact {} notices s
  have hverdict : r.verdict = .error (.unknownWaitEvent s.operation.entryPoint ⟨2⟩) :=
    (hwait _ ⟨2⟩).2 ⟨rfl, [⟨1⟩], [⟨3⟩], rfl, by decide, by decide⟩
  exact ⟨hverdict, hkept _ ⟨2⟩ (Or.inl hverdict)⟩

end Monitor

end WaitFor
