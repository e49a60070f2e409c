import Mathlib.Logic.Equiv.Basic
import WaitFor.Proofs.Monitor.Copies
import WaitFor.Proofs.Monitor.Effect

/-! # Handles that are used again

A runtime may hand out the handle of a destroyed event again.  The new event has nothing of the old
one: a run where it has a handle of its own goes on in the same way.

`Monitor.Relabels σ π m m'` says that `m'` is `m` with the handles that `σ` gives to its live
events. The records of `m'` may name events of the time before, too, so `π` leads from the handles
in them to those in the records of `m`; it leads back from `σ` for all events that the run goes on
to name.  One notice that both monitors are told, under the handles that they know, keeps this
(`Relabels.notify`). -/

namespace WaitFor

/-! ## Other handles for events -/

/-- The same submission, with other handles for the events. -/
def Submission.relabeled (f : EventHandle → EventHandle) (s : Submission) : Submission :=
  { s with signal := s.signal.map f, waits := s.waits.map f }

/-- The same notice, with other handles for the events. -/
def Notice.relabeled (f : EventHandle → EventHandle) : Notice → Notice
  | created event => created (f event)
  | destroyed event => destroyed (f event)
  | hostReset event => hostReset (f event)
  | submitted s => submitted (s.relabeled f)

/-- The summary without its description, with other handles for the events. -/
def ActionSummary.outlined (f : EventHandle → EventHandle) (summary : ActionSummary) :
    ActionSummary :=
  { summary with description := "", signal := summary.signal.map f }

/-- The report without descriptions, with other handles for the events. -/
def DeadlockReport.outlined (f : EventHandle → EventHandle) (report : DeadlockReport) :
    DeadlockReport :=
  { report with
    waitEvent := f report.waitEvent
    signaler := report.signaler.outlined f
    waiter := report.waiter.outlined f
    path := report.path.map (ActionSummary.outlined f) }

/-- The violation without descriptions, with other handles for the events. -/
def Violation.outlined (f : EventHandle → EventHandle) : Violation → Violation
  | unknownWaitEvent api event => unknownWaitEvent api (f event)
  | unknownSignalEvent api event => unknownSignalEvent api (f event)
  | deadlock report => deadlock (report.outlined f)

/-- The verdict without descriptions, with other handles for the events. -/
def Verdict.outlined (f : EventHandle → EventHandle) (verdict : Verdict) : Verdict :=
  verdict.mapError (Violation.outlined f)

variable {notice : Notice} {event : EventHandle} {f σ π : EventHandle → EventHandle}

/-- Names that are given and taken back are the old ones. -/
theorem map_map_eq_self {signal : Option EventHandle} (h : ∀ event ∈ signal, π (σ event) = event) :
    (signal.map σ).map π = signal := by
  cases signal with
  | none => rfl
  | some event => exact congrArg some (h event rfl)

/-- Only the handles of the events that a submission names matter. -/
theorem Submission.relabeled_congr {s : Submission}
    (hsignal : ∀ event ∈ s.signal, f event = σ event)
    (hwaits : ∀ event ∈ s.waits, f event = σ event) : s.relabeled f = s.relabeled σ := by
  rw [relabeled, relabeled, Option.map_congr hsignal, List.map_congr_left hwaits]

/-- Only the handles of the events that a notice mentions matter. -/
theorem Notice.relabeled_congr (h : ∀ event ∈ notice.events, f event = σ event) :
    notice.relabeled f = notice.relabeled σ := by
  cases notice with
  | created event => exact congrArg created (h event List.mem_cons_self)
  | destroyed event => exact congrArg destroyed (h event List.mem_cons_self)
  | hostReset event => exact congrArg hostReset (h event List.mem_cons_self)
  | submitted s =>
    refine congrArg submitted (Submission.relabeled_congr (fun event he => h event ?_)
      fun event he => h event (List.mem_append_right _ he))
    exact List.mem_append_left _ (Option.mem_toList.2 he)

/-- Names that are not changed stay. -/
theorem Notice.relabeled_id (notice : Notice) : notice.relabeled id = notice := by
  cases notice with
  | submitted s => rw [relabeled, Submission.relabeled, Option.map_id, List.map_id, id]
  | _ => rfl

namespace Monitor

variable {m m' m₁ : Monitor} {s : Submission} {waiter signaler : NodeId} {waits : List EventHandle}

/-! ## Events that a notice does not mention -/

/-- The binding of an event stays if a notice does not mention it. -/
theorem Coherent.binding?_notify (h : m.Coherent) (hevent : event ∉ notice.events) :
    (Observer.notify m notice).state.binding? event = m.binding? event := by
  have hbind : ∀ {other}, event ∉ [other] →
      (m.live.bind other .unassigned).binding? event = m.live.binding? event := by
    intro other hother
    rw [LiveEvents.binding?_bind, if_neg]
    rintro rfl
    exact hother List.mem_cons_self
  cases notice with
  | created other => exact hbind hevent
  | destroyed other =>
    show (m.live.destroy other).2.binding? event = m.live.binding? event
    rw [LiveEvents.binding?_destroy, if_neg]
    rintro rfl
    exact hevent List.mem_cons_self
  | hostReset other =>
    show (m.live.reset other).2.binding? event = m.live.binding? event
    rw [LiveEvents.reset]
    split
    · exact hbind hevent
    · rfl
  | submitted s =>
    show (m.submit s).2.binding? event = m.binding? event
    by_cases hvalid : m.Validates s
    · obtain ⟨waiter, m₁, hplaced⟩ := h.exists_placed hvalid
      obtain ⟨before, after, hsplit, hawaited⟩ :=
        hplaced.coherent.exists_awaited (s := s) hplaced.recorded hplaced.contains
      have hbefore : event ∉ before := by
        intro hmem
        refine hevent (List.mem_append_right _ ?_)
        rw [hsplit]
        exact List.mem_append_left _ hmem
      have hsignal : event ∉ s.signal :=
        fun hmem => hevent (List.mem_append_left _ (Option.mem_toList.2 hmem))
      rw [hplaced.submit, hawaited.binding? (Or.inl hbefore),
        hplaced.claiming.binding?_of_not_mem hsignal]
    · obtain ⟨violation, hsubmit⟩ := submit_of_not_validates hvalid
      rw [hsubmit]

/-- Notices change the bindings of the events that they mention only. -/
theorem Coherent.binding?_afterAll {notices : List Notice} (h : m.Coherent)
    (hnotices : ∀ notice ∈ notices, event ∉ notice.events) :
    (m.afterAll notices).binding? event = m.binding? event := by
  induction notices generalizing m with
  | nil => rfl
  | cons notice notices ih =>
    obtain ⟨hnotice, hnotices⟩ := List.forall_mem_cons.1 hnotices
    exact (ih (h.notify notice) hnotices).trans (h.binding?_notify hnotice)

/-! ## Monitors that differ in handles -/

/-- `m'` is `m` with the handles that `σ` gives to its live events; `π` leads from the handles in
the records of `m'` to those in the records of `m`. -/
structure Relabels (σ π : EventHandle → EventHandle) (m m' : Monitor) : Prop where
  injective : Function.Injective σ
  settings : m'.settings = m.settings
  graph : m'.graph = m.graph
  binding? : ∀ event, m'.live.binding? (σ event) = m.live.binding? event
  signal : ∀ x, (m'.actions.get? x).map (fun act => act.signal.map π) =
    (m.actions.get? x).map Action.signal
  liveEvents : m'.live.size = m.live.size
  actions : m'.actions.size = m.actions.size

namespace Relabels

/-- Fresh monitors are the same under any names. -/
theorem fresh (hσ : Function.Injective σ) (π : EventHandle → EventHandle)
    (settings : MonitorSettings) : Relabels σ π (fresh settings) (fresh settings) where
  injective := hσ
  settings := rfl
  graph := rfl
  binding? _ := rfl
  signal _ := rfl
  liveEvents := rfl
  actions := rfl

/-- New names change no size. -/
theorem size (h : Relabels σ π m m') : m'.size = m.size := by
  rw [Monitor.size, Monitor.size, h.graph, h.liveEvents, h.actions]

/-- An event is live under its new name if it was under its old one. -/
theorem contains (h : Relabels σ π m m') (event : EventHandle) :
    m'.live.contains (σ event) = m.live.contains event :=
  congrArg Option.isSome (h.binding? event)

/-! ## One lemma for each kind of change -/

/-- Binding an event under both names keeps the monitors alike. -/
theorem bind (h : Relabels σ π m m') (event : EventHandle) (b : Binding) :
    Relabels σ π { m with live := m.live.bind event b }
      { m' with live := m'.live.bind (σ event) b } :=
  { h with
    binding? := fun other => by
      simp only [LiveEvents.binding?_bind, h.injective.eq_iff, h.binding?]
    liveEvents := by rw [LiveEvents.size_bind, LiveEvents.size_bind, h.contains, h.liveEvents] }

/-- Destroying an event under both names keeps the monitors alike. -/
theorem destroy (h : Relabels σ π m m') (event : EventHandle) :
    Relabels σ π { m with live := (m.live.destroy event).2 }
      { m' with live := (m'.live.destroy (σ event)).2 } :=
  { h with
    binding? := fun other => by
      simp only [LiveEvents.binding?_destroy, h.injective.eq_iff, h.binding?]
    liveEvents := by
      rw [LiveEvents.size_destroy, LiveEvents.size_destroy, h.contains, h.liveEvents] }

/-- Whatever is done to the graph, if it is done to both. -/
theorem withGraph (h : Relabels σ π m m') (graph : Graph) :
    Relabels σ π { m with graph } { m' with graph } :=
  { h with graph := rfl }

/-- A record under both names keeps the monitors alike, whatever its text. -/
theorem record (h : Relabels σ π m m') (node : NodeId) (text text' : String)
    {signal : Option EventHandle} (hsignal : ∀ event ∈ signal, π (σ event) = event) :
    Relabels σ π { m with actions := m.actions.record node text signal }
      { m' with actions := m'.actions.record node text' (signal.map σ) } := by
  have hrecorded : (m'.actions.get? node).isSome = (m.actions.get? node).isSome := by
    simpa using congrArg Option.isSome (h.signal node)
  refine { h with signal := fun x => ?_, actions := ?_ }
  · rw [Actions.get?_record, Actions.get?_record]
    split
    · exact congrArg some (map_map_eq_self hsignal)
    · exact h.signal x
  · rw [Actions.size_record, Actions.size_record, hrecorded, h.actions]

/-! ## Submissions -/

/-- The operation of a submission comes to the same node. -/
theorem claiming (h : Relabels σ π m m') (hsignal : ∀ event ∈ s.signal, π (σ event) = event)
    (hclaim : Claiming m s waiter m₁) :
    ∃ m₁', Claiming m' (s.relabeled σ) waiter m₁' ∧ Relabels σ π m₁ m₁' := by
  have hadd : Relabels σ π { m with graph := m.graph.addNode.2 }
      { m' with graph := m'.graph.addNode.2 } := by
    rw [h.graph]
    exact h.withGraph _
  have hnew : m'.graph.addNode.1 = m.graph.addNode.1 := congrArg (·.addNode.1) h.graph
  have hnamed : ∀ {signal}, s.signal = some signal →
      (s.relabeled σ).signal = some (σ signal) := congrArg (Option.map σ)
  have hrecord : ∀ {m m' : Monitor} {node signal}, Relabels σ π m m' → s.signal = signal →
      Relabels σ π { m with actions := m.actions.record node s.text signal }
        { m' with actions := m'.actions.record node (s.relabeled σ).text (signal.map σ) } :=
    fun h hs => h.record _ _ _ (hs ▸ hsignal)
  cases hclaim with
  | anonymous hs =>
    rw [← hnew]
    exact ⟨_, .anonymous (congrArg (Option.map σ) hs), hrecord hadd hs⟩
  | shared hs hb => exact ⟨_, .shared (hnamed hs) ((h.binding? _).trans hb), h⟩
  | placeholder hs hb =>
    exact ⟨_, .placeholder (hnamed hs) ((h.binding? _).trans hb), hrecord (h.bind _ _) hs⟩
  | first hs hb =>
    rw [← hnew]
    exact ⟨_, .first (hnamed hs) ((h.binding? _).trans hb), hrecord (hadd.bind _ _) hs⟩

/-- A wait finds the same node under both names. -/
theorem waitNode? {live : LiveEvents} {graph : Graph} (h : Relabels σ π m m')
    (hwait : m.live.waitNode? event m.graph = some (signaler, live, graph)) :
    ∃ live', m'.live.waitNode? (σ event) m'.graph = some (signaler, live', graph) ∧
      Relabels σ π { m with live, graph } { m' with live := live', graph } := by
  have hb := h.binding? event
  rcases LiveEvents.waitNode?_cases hwait with ⟨hbinding, rfl, rfl⟩ | ⟨hfirst, rfl, rfl, rfl⟩
  · refine ⟨m'.live, ?_, h.withGraph _⟩
    rw [LiveEvents.waitNode?, h.graph, hb]
    rcases hbinding with hbinding | hbinding
    · rw [hbinding]
    · rw [hbinding]
  · refine ⟨_, ?_, (h.bind event (.pending m.graph.addNode.1)).withGraph _⟩
    rw [LiveEvents.waitNode?, h.graph, hb, hfirst]

/-- The summaries of a node differ in names and texts only. -/
theorem summary (h : Relabels σ π m m') (x : NodeId) :
    (m'.actions.summary x).outlined π = (m.actions.summary x).outlined id := by
  have hsignal : ((m'.actions.get? x).bind Action.signal).map π =
      (m.actions.get? x).bind Action.signal := by
    have hx := h.signal x
    cases hact' : m'.actions.get? x with
    | none =>
      cases hact : m.actions.get? x with
      | none => rfl
      | some act => simp [hact', hact] at hx
    | some act' =>
      cases hact : m.actions.get? x with
      | none => simp [hact', hact] at hx
      | some act => simpa [hact', hact] using hx
  rw [Actions.summary, Actions.summary, ActionSummary.outlined, ActionSummary.outlined, hsignal,
    Option.map_id, id]

/-- Both monitors report the same of a refused wait. -/
theorem deadlockReport (h : Relabels σ π m m') (hsignal : ∀ event ∈ s.signal, π (σ event) = event)
    (hevent : π (σ event) = event) :
    (m'.deadlockReport (s.relabeled σ) (σ event) signaler waiter).outlined π =
      (m.deadlockReport s event signaler waiter).outlined id := by
  have hsummaries : ∀ nodes : List NodeId,
      (nodes.map m'.actions.summary).map (ActionSummary.outlined π) =
        (nodes.map m.actions.summary).map (ActionSummary.outlined id) := by
    intro nodes
    rw [List.map_map, List.map_map]
    exact List.map_congr_left fun x _ => h.summary x
  have hsignaler : ((m'.actions.summary signaler).signal <|> some (σ event)).map π =
      ((m.actions.summary signaler).signal <|> some event).map id := by
    have hsummary : (m'.actions.summary signaler).signal.map π =
        (m.actions.summary signaler).signal.map id :=
      congrArg ActionSummary.signal (h.summary signaler)
    rw [Option.map_id, id] at hsummary
    rw [Option.map_id, id, ← hsummary]
    cases (m'.actions.summary signaler).signal with
    | none => exact congrArg some hevent
    | some signal => rfl
  simp only [Monitor.deadlockReport, DeadlockReport.outlined, h.graph, h.settings, hsummaries,
    ActionSummary.outlined, hsignaler, hevent, Submission.relabeled,
    map_map_eq_self hsignal, Option.map_id, id]
  rfl

/-- The waits of an operation are judged alike. -/
theorem insertWaits (h : Relabels σ π m m') (hsignal : ∀ event ∈ s.signal, π (σ event) = event)
    (hwaits : ∀ event ∈ waits, π (σ event) = event) :
    let r := Monitor.insertWaits s waiter m waits
    let r' := Monitor.insertWaits (s.relabeled σ) waiter m' (waits.map σ)
    r'.1.outlined π = r.1.outlined id ∧ Relabels σ π r.2 r'.2 := by
  induction waits generalizing m m' with
  | nil => exact ⟨rfl, h⟩
  | cons event waits ih =>
    obtain ⟨hevent, hwaits⟩ := List.forall_mem_cons.1 hwaits
    rw [List.map_cons]
    cases hwait : m.live.waitNode? event m.graph with
    | none =>
      have hwait' : m'.live.waitNode? (σ event) m'.graph = none := by
        rw [LiveEvents.waitNode?_eq_none_iff] at hwait ⊢
        rw [h.contains, hwait]
      rw [insertWaits_of_unknown hwait, insertWaits_of_unknown hwait']
      refine ⟨congrArg (Except.error ∘ Violation.unknownWaitEvent s.operation.entryPoint) ?_, h⟩
      exact hevent
    | some found =>
      obtain ⟨signaler, live, graph⟩ := found
      obtain ⟨live', hwait', h⟩ := h.waitNode? hwait
      have hnext := h.withGraph (graph.insertEdge signaler waiter).2
      cases haccept : (graph.insertEdge signaler waiter).1 with
      | false =>
        rw [insertWaits_of_refused hwait haccept, insertWaits_of_refused hwait' haccept]
        refine ⟨congrArg (Except.error ∘ Violation.deadlock) ?_, hnext⟩
        exact hnext.deadlockReport hsignal hevent
      | true =>
        rw [insertWaits_of_accepted hwait haccept, insertWaits_of_accepted hwait' haccept]
        exact ih hnext hwaits

/-- A submission is judged alike. -/
theorem submit (h : Relabels σ π m m') (hsignal : ∀ event ∈ s.signal, π (σ event) = event)
    (hwaits : ∀ event ∈ s.waits, π (σ event) = event) :
    (m'.submit (s.relabeled σ)).1.outlined π = (m.submit s).1.outlined id ∧
      Relabels σ π (m.submit s).2 (m'.submit (s.relabeled σ)).2 := by
  have hfind : ((s.relabeled σ).waits.find? fun event => !m'.live.contains event) =
      (s.waits.find? fun event => !m.live.contains event).map σ := by
    have hcontains : (fun event => !m'.live.contains event) ∘ σ =
        fun event => !m.live.contains event :=
      funext fun event => congrArg not (h.contains event)
    rw [← hcontains]
    exact List.find?_map
  rw [Monitor.submit, Monitor.submit, hfind]
  cases hfound : s.waits.find? fun event => !m.live.contains event with
  | some event =>
    refine ⟨congrArg (Except.error ∘ Violation.unknownWaitEvent s.operation.entryPoint) ?_, h⟩
    exact hwaits event (List.mem_of_find?_eq_some hfound)
  | none =>
    cases hclaim : m.claimNode s with
    | error violation =>
      obtain ⟨event, hs, hnone, rfl⟩ := claimNode_eq_error hclaim
      have hdead := (h.contains event).trans (LiveEvents.signalNode?_eq_none_iff.1 hnone)
      have hnamed : (s.relabeled σ).signal = some (σ event) := congrArg (Option.map σ) hs
      rw [Option.map_none, claimNode_of_unknown hnamed hdead]
      refine ⟨congrArg (Except.error ∘ Violation.unknownSignalEvent s.operation.entryPoint) ?_, h⟩
      exact hsignal event hs
    | ok claimed =>
      obtain ⟨m₁', hclaim', h₁⟩ := h.claiming hsignal (claimNode_eq_ok_iff.1 hclaim)
      rw [Option.map_none, claimNode_eq_ok_iff.2 hclaim']
      exact h₁.insertWaits hsignal hwaits

/-! ## Notices -/

/-- A notice is answered alike. -/
theorem notify (h : Relabels σ π m m') (hnotice : ∀ event ∈ notice.events, π (σ event) = event) :
    (Observer.notify m' (notice.relabeled σ)).verdict.outlined π =
        (Observer.notify m notice).verdict.outlined id ∧
      Relabels σ π (Observer.notify m notice).state
        (Observer.notify m' (notice.relabeled σ)).state := by
  cases notice with
  | created event => exact ⟨rfl, h.bind event .unassigned⟩
  | destroyed event => exact ⟨rfl, h.destroy event⟩
  | hostReset event =>
    refine ⟨rfl, ?_⟩
    show Relabels σ π { m with live := (m.live.reset event).2 }
      { m' with live := (m'.live.reset (σ event)).2 }
    rw [LiveEvents.reset, LiveEvents.reset, h.contains]
    split
    · exact h.bind event .unassigned
    · exact h
  | submitted s =>
    exact h.submit (fun event he => hnotice event (List.mem_append_left _ (Option.mem_toList.2 he)))
      fun event he => hnotice event (List.mem_append_right _ he)

/-- A run is answered alike. -/
theorem run {notices : List Notice} (h : Relabels σ π m m')
    (hnotices : ∀ notice ∈ notices, ∀ event ∈ notice.events, π (σ event) = event) :
    (m'.verdicts (notices.map (Notice.relabeled σ))).map (Verdict.outlined π) =
        (m.verdicts notices).map (Verdict.outlined id) ∧
      Relabels σ π (m.afterAll notices) (m'.afterAll (notices.map (Notice.relabeled σ))) := by
  induction notices generalizing m m' with
  | nil => exact ⟨rfl, h⟩
  | cons notice notices ih =>
    obtain ⟨hnotice, hnotices⟩ := List.forall_mem_cons.1 hnotices
    obtain ⟨hverdict, hnext⟩ := h.notify hnotice
    obtain ⟨hverdicts, hlast⟩ := ih hnext hnotices
    exact ⟨congrArg₂ List.cons hverdict hverdicts, hlast⟩

end Relabels

/-! ## A handle that is used again -/

section Reuse

variable {before after : List Notice} {new other : EventHandle}

/-- But for the new name, giving it is the same as swapping it with the old one. -/
theorem update_eq_swap (hother : other ≠ new) :
    Function.update id event new other = Equiv.swap event new other := by
  by_cases heq : other = event
  · rw [heq, Function.update_self, Equiv.swap_apply_left]
  · rw [Function.update_of_ne heq, Equiv.swap_apply_of_ne_of_ne heq hother, id]

/-- But for the new name, it can be taken back. -/
theorem update_swap (hother : other ≠ new) :
    Function.update id new event (Equiv.swap event new other) = other := by
  by_cases heq : other = event
  · rw [heq, Equiv.swap_apply_left, Function.update_self]
  · rw [Equiv.swap_apply_of_ne_of_ne heq hother, Function.update_of_ne hother, id]

namespace Relabels

/-- What a run that does not name `new` is answered and records does not name it either. -/
theorem unnamed (settings : MonitorSettings) (event : EventHandle)
    (hnew : ∀ notice ∈ before, new ∉ notice.events) :
    let m := Monitor.fresh settings
    (m.verdicts before).map (Verdict.outlined (Function.update id new event)) =
        (m.verdicts before).map (Verdict.outlined id) ∧
      Relabels id (Function.update id new event) (m.afterAll before) (m.afterAll before) := by
  have hback : ∀ notice ∈ before, ∀ other ∈ notice.events,
      Function.update id new event (id other) = other := by
    intro notice hnotice other hother
    refine Function.update_of_ne ?_ _ _
    rintro rfl
    exact hnew notice hnotice hother
  have hrun := (fresh Function.injective_id (Function.update id new event) settings).run hback
  rwa [funext Notice.relabeled_id, List.map_id'] at hrun

/-- A new event may have a handle that was never used, in the place of one that is not in use. -/
theorem created (settings : MonitorSettings)
    (hevent : ((Monitor.fresh settings).afterAll before).live.contains event = false)
    (hnew : ∀ notice ∈ before, new ∉ notice.events) :
    let m := (Monitor.fresh settings).afterAll before
    Relabels (Equiv.swap event new) (Function.update id new event)
      (Observer.notify m (.created event)).state (Observer.notify m (.created new)).state := by
  intro m
  have hevent : m.live.binding? event = none := LiveEvents.not_contains_iff.1 hevent
  have hunused : m.live.binding? new = none := (Coherent.fresh settings).binding?_afterAll hnew
  have hsize : ∀ {other}, m.live.binding? other = none →
      (m.live.bind other .unassigned).size = m.live.size + 1 := by
    intro other hother
    rw [LiveEvents.size_bind, LiveEvents.not_contains_iff.2 hother]
    rfl
  exact {
    injective := (Equiv.swap event new).injective
    settings := rfl
    graph := rfl
    binding? := fun other => by
      show (m.live.bind new .unassigned).binding? _ = (m.live.bind event .unassigned).binding? other
      rw [LiveEvents.binding?_bind, LiveEvents.binding?_bind]
      by_cases heq : event = other
      · subst heq
        rw [Equiv.swap_apply_left, if_pos rfl, if_pos rfl]
      · rw [if_neg heq]
        by_cases hother : new = other
        · subst hother
          rw [Equiv.swap_apply_right, if_neg (Ne.symm heq), hevent, hunused]
        · rw [Equiv.swap_apply_of_ne_of_ne (Ne.symm heq) (Ne.symm hother), if_neg hother]
    signal := (unnamed settings event hnew).2.signal
    liveEvents := (hsize hunused).trans (hsize hevent).symm
    actions := rfl }

/-- From the creation of an event on, a run may go on with a handle that occurs nowhere in it. -/
theorem reuse (settings : MonitorSettings)
    (hevent : ((Monitor.fresh settings).afterAll before).live.contains event = false)
    (hnew : ∀ notice ∈ before ++ .created event :: after, new ∉ notice.events) :
    let m := Monitor.fresh settings
    let run := before ++ .created event :: after
    let run' := before ++
      (.created event :: after).map (Notice.relabeled (Function.update id event new))
    (m.verdicts run').map (Verdict.outlined (Function.update id new event)) =
        (m.verdicts run).map (Verdict.outlined id) ∧
      Relabels (Equiv.swap event new) (Function.update id new event) (m.afterAll run)
        (m.afterAll run') := by
  intro m run run'
  obtain ⟨hbefore, hrest⟩ := List.forall_mem_append.1 hnew
  have hother : ∀ notice ∈ after, ∀ other ∈ notice.events, other ≠ new := by
    rintro notice hnotice other hother rfl
    exact (List.forall_mem_cons.1 hrest).2 notice hnotice hother
  have hafter : after.map (Notice.relabeled (Function.update id event new)) =
      after.map (Notice.relabeled (Equiv.swap event new)) :=
    List.map_congr_left fun notice hnotice =>
      Notice.relabeled_congr fun other he => update_eq_swap (hother notice hnotice other he)
  have hrun' : run' = before ++ .created new ::
      after.map (Notice.relabeled (Equiv.swap event new)) := by
    have hcreated : (Notice.created event).relabeled (Function.update id event new) =
        .created new := congrArg Notice.created (Function.update_self ..)
    rw [← hafter, ← hcreated]
    rfl
  obtain ⟨hverdicts, hlast⟩ := (created settings hevent hbefore).run
    fun notice hnotice other he => update_swap (hother notice hnotice other he)
  rw [hrun', verdicts_append, verdicts_append, afterAll_append, afterAll_append, List.map_append,
    List.map_append, (unnamed settings event hbefore).1]
  exact ⟨congrArg (_ ++ Verdict.outlined id (.ok ()) :: ·) hverdicts, hlast⟩

end Relabels

/-- What a creation does, it does whether or not the event was live. -/
theorem notify_created_eq (m : Monitor) (event : EventHandle) :
    (Observer.notify m (.created event)).state = m.afterAll [.destroyed event, .created event] :=
  congrArg (fun live => { m with live }) (LiveEvents.bind_destroy .unassigned).symm

/-- To reset a live event is to create it again. -/
theorem notify_hostReset_of_live (hlive : m.live.contains event = true) :
    (Observer.notify m (.hostReset event)).state = (Observer.notify m (.created event)).state := by
  have hreset : (m.live.reset event).2 = m.live.bind event .unassigned := by
    rw [LiveEvents.reset, if_pos hlive]
  exact congrArg (fun live => { m with live }) hreset

/-- A handle that is used again is as good as new.  If from a creation on, at a moment when the
handle is not live, the run goes on with a handle that occurs nowhere in it, then it gets the same
verdicts, up to the handles and descriptions in them, and leads to the same sizes, the same graph,
the same recorded nodes and the same bindings.  A reset or a creation of a live event leads to the
same state as its destruction and creation. -/
theorem reused_handle_is_new (settings : MonitorSettings) :
    (∀ (before after : List Notice) (event new : EventHandle),
      ((fresh settings).afterAll before).live.contains event = false →
      (∀ notice ∈ before ++ .created event :: after, new ∉ notice.events) →
      let run := before ++ .created event :: after
      let run' := before ++
        (.created event :: after).map (Notice.relabeled (Function.update id event new))
      let m := (fresh settings).afterAll run
      let m' := (fresh settings).afterAll run'
      ((fresh settings).verdicts run').map (Verdict.outlined (Function.update id new event)) =
          ((fresh settings).verdicts run).map (Verdict.outlined id) ∧
        m'.size = m.size ∧ m'.graph = m.graph ∧
        (∀ x, (m'.actions.get? x).isSome = (m.actions.get? x).isSome) ∧
        m'.binding? new = m.binding? event ∧ m'.binding? event = none ∧
        ∀ other, other ≠ event → other ≠ new → m'.binding? other = m.binding? other) ∧
    ∀ (notices : List Notice) (event : EventHandle),
      let m := (fresh settings).afterAll notices
      m.live.contains event = true →
      (Observer.notify m (.hostReset event)).state = m.afterAll [.destroyed event, .created event] ∧
        (Observer.notify m (.created event)).state =
          m.afterAll [.destroyed event, .created event] := by
  constructor
  · intro before after event new hevent hnew run run' m m'
    obtain ⟨hverdicts, h⟩ := Relabels.reuse settings hevent hnew
    have hunused : m.binding? new = none := (Coherent.fresh settings).binding?_afterAll hnew
    refine ⟨hverdicts, h.size, h.graph, fun x => ?_, ?_, ?_, fun other hevent hnew => ?_⟩
    · have hrecorded := congrArg Option.isSome (h.signal x)
      rwa [Option.isSome_map, Option.isSome_map] at hrecorded
    · have hbinding := h.binding? event
      rwa [Equiv.swap_apply_left] at hbinding
    · have hbinding := (h.binding? new).trans hunused
      rwa [Equiv.swap_apply_right] at hbinding
    · have hbinding := h.binding? other
      rwa [Equiv.swap_apply_of_ne_of_ne hevent hnew] at hbinding
  · intro notices event m hlive
    exact ⟨(notify_hostReset_of_live hlive).trans (notify_created_eq m event),
      notify_created_eq m event⟩

/-- An event is signaled and destroyed, and the operation that signals the next one waits on it,
too: the refusal is the same whether or not the two events have one handle. -/
theorem reused_handle_is_new_of_own_event :
    let waiting (event : EventHandle) : Submission :=
      { operation := .barrier, signal := some event, waits := [event] }
    let before : List Notice :=
      [.created ⟨1⟩, .submitted { operation := .barrier, signal := some ⟨1⟩ }, .destroyed ⟨1⟩]
    let m := (fresh {}).afterAll (before ++ [.created ⟨1⟩, .submitted (waiting ⟨1⟩)])
    let m' := (fresh {}).afterAll (before ++ [.created ⟨2⟩, .submitted (waiting ⟨2⟩)])
    m'.size = m.size ∧ m'.binding? ⟨2⟩ = some (.bound ⟨1⟩) ∧
      (Observer.notify m (.hostReset ⟨1⟩)).state = m.afterAll [.destroyed ⟨1⟩, .created ⟨1⟩] := by
  intro waiting before m m'
  obtain ⟨hreuse, hreset⟩ := reused_handle_is_new {}
  obtain ⟨-, hsize, -, -, hbinding, -⟩ := hreuse before [.submitted (waiting ⟨1⟩)] ⟨1⟩ ⟨2⟩
    (by decide +kernel) (by decide)
  have hrelabeled : [.created ⟨1⟩, .submitted (waiting ⟨1⟩)].map
      (Notice.relabeled (Function.update id ⟨1⟩ ⟨2⟩)) =
        [.created ⟨2⟩, .submitted (waiting ⟨2⟩)] := by decide
  rw [hrelabeled] at hsize hbinding
  have hbound : m.binding? ⟨1⟩ = some (.bound ⟨1⟩) := by decide +kernel
  have hlive : m.live.contains ⟨1⟩ = true := LiveEvents.contains_iff.2 ⟨_, hbound⟩
  exact ⟨hsize, hbinding.trans hbound, (hreset _ ⟨1⟩ hlive).1⟩

end Reuse

end Monitor

end WaitFor
