import WaitFor.Proofs.Monitor.Growth

/-! # Who owns a node

The record of a node is written once: it is that of the first submission of live events whose
operation came to the node, whatever became of its waits.  Later submissions that come to the same
node, and all other notices, leave it as it is.

`Monitor.Recording` lists what a notice can do to the records; a run is told from it by induction.
-/

namespace WaitFor

open Relation

/-- Whether an operation signals the event. -/
def Binding.isBound : Binding → Bool
  | bound _ => true
  | _ => false

/-- What is recorded of a submission. -/
def Submission.action (s : Submission) : Action := ⟨s.text, s.signal⟩

namespace Monitor

variable {m m' : Monitor} {s : Submission} {notice : Notice} {event : EventHandle} {x : NodeId}

/-- No operation has signaled the event of the submission in its generation. -/
def FirstToSignal (m : Monitor) (s : Submission) : Prop :=
  ∀ event ∈ s.signal, ∀ b ∈ m.binding? event, b.isBound = false

instance (m : Monitor) (s : Submission) : Decidable (m.FirstToSignal s) :=
  inferInstanceAs (Decidable (∀ _ ∈ _, ∀ _ ∈ _, _ = false))

/-- The submission of a notice with the node that its operation comes to; `none` if the notice is
something else or names an event that is not live. -/
def placed? (m : Monitor) : Notice → Option (NodeId × Submission)
  | .submitted s =>
    if m.Validates s then (m.claimNode s).toOption.map fun claimed => (claimed.1, s) else none
  | _ => none

/-- The same, if the operation is the first of the generation and so claims the node. -/
def claim? (m : Monitor) (notice : Notice) : Option (NodeId × Submission) :=
  (m.placed? notice).filter fun placed => m.FirstToSignal placed.2

/-- What `find` finds in the notices of a run, each in the state that it comes to. -/
def collect {α : Type} (find : Monitor → Notice → Option α) (m : Monitor) : List Notice → List α
  | [] => []
  | notice :: notices =>
    (find m notice).toList ++ (Observer.notify m notice).state.collect find notices

/-! ## One notice -/

/-- A valid submission is placed at the node that its operation comes to. -/
theorem placed?_submitted (hvalid : m.Validates s) (hclaim : Claiming m s x m') :
    m.placed? (.submitted s) = some (x, s) := by
  rw [placed?, if_pos hvalid, claimNode_eq_ok_iff.2 hclaim]
  rfl

/-- What a notice can do to the records: an operation claims a node without a record, or an earlier
operation has claimed the node, or no operation comes to a node. -/
inductive Recording (m : Monitor) (notice : Notice) : Actions → Prop
  | claimed {s : Submission} {node : NodeId} (hsubmitted : notice = .submitted s)
      (hvalid : m.Validates s) (hfirst : m.FirstToSignal s)
      (hplaced : m.placed? notice = some (node, s)) (hnone : m.actions.get? node = none) :
    Recording m notice (m.actions.record node s.text s.signal)
  | shared {s : Submission} {node : NodeId} {act : Action} (hsubmitted : notice = .submitted s)
      (hfirst : ¬ m.FirstToSignal s) (hplaced : m.placed? notice = some (node, s))
      (hact : m.actions.get? node = some act) : Recording m notice m.actions
  | unplaced (hinvalid : ∀ s, notice = .submitted s → ¬ m.Validates s)
      (hplaced : m.placed? notice = none) : Recording m notice m.actions

/-- All that a notice can do to the records. -/
theorem Coherent.recording (h : m.Coherent) (notice : Notice) :
    Recording m notice (Observer.notify m notice).state.actions := by
  cases notice with
  | submitted s =>
    show Recording m (.submitted s) (m.submit s).2.actions
    by_cases hvalid : m.Validates s
    · obtain ⟨waiter, m', hplaced⟩ := h.exists_placed hvalid
      obtain ⟨act, hact⟩ := hplaced.recorded
      have hplace := placed?_submitted hvalid hplaced.claiming
      have hkept : (m.submit s).2.actions = m'.actions := by
        rw [hplaced.submit]
        exact (hplaced.coherent.insertWaits hplaced.recorded).2.1
      rw [hkept]
      have hfirst : ∀ {event b}, s.signal = some event → m.binding? event = some b →
          b.isBound = false → m.FirstToSignal s := by
        intro event b hsignal hb hnot other hother b' hb'
        cases hsignal.symm.trans hother
        cases hb.symm.trans hb'
        exact hnot
      cases hplaced.claiming with
      | anonymous hsignal =>
        have hrecording := Recording.claimed rfl hvalid
          (fun event he => by rw [hsignal] at he; cases he) hplace h.claims.get?_new
        rwa [hsignal] at hrecording
      | shared hsignal hb =>
        exact .shared rfl (fun hfirst => Bool.noConfusion (hfirst _ hsignal _ hb)) hplace hact
      | placeholder hsignal hb =>
        have hrecording := Recording.claimed rfl hvalid (hfirst hsignal hb rfl) hplace
          (h.claims.pending hb)
        rwa [hsignal] at hrecording
      | first hsignal hb =>
        have hrecording := Recording.claimed rfl hvalid (hfirst hsignal hb rfl) hplace
          h.claims.get?_new
        rwa [hsignal] at hrecording
    · obtain ⟨violation, hsubmit⟩ := submit_of_not_validates hvalid
      rw [hsubmit]
      refine .unplaced (fun t ht => ?_) (if_neg hvalid)
      cases ht
      exact hvalid
  | _ => exact .unplaced (fun _ => nofun) rfl

/-- A notice records the submission that it places, where nothing is recorded. -/
theorem Coherent.get?_notify (h : m.Coherent) (notice : Notice) (x : NodeId) :
    (Observer.notify m notice).state.actions.get? x =
      (m.actions.get? x).or
        (((m.placed? notice).filter fun placed => placed.1 = x).map fun placed =>
          placed.2.action) := by
  have hrecording := h.recording notice
  generalize (Observer.notify m notice).state.actions = acts at hrecording ⊢
  cases hrecording with
  | @claimed s y _ _ _ hplaced hnone =>
    rw [hplaced, Actions.get?_record]
    by_cases hyx : y = x
    · subst hyx
      rw [hnone, if_pos rfl, Option.filter_some_pos (by simp)]
      rfl
    · rw [if_neg hyx, Option.filter_some_neg (by simpa using hyx), Option.map_none, Option.or_none]
  | @shared s y act _ _ hplaced hact =>
    rw [hplaced]
    by_cases hyx : y = x
    · subst hyx
      rw [hact, Option.some_or]
    · rw [Option.filter_some_neg (by simpa using hyx), Option.map_none, Option.or_none]
  | unplaced _ hplaced => rw [hplaced, Option.filter_none, Option.map_none, Option.or_none]

/-- A notice writes the record of the submission that claims its node, where nothing is recorded. -/
theorem Coherent.actions_notify (h : m.Coherent) (notice : Notice) :
    (∃ x s, m.claim? notice = some (x, s) ∧ m.actions.get? x = none ∧
        (Observer.notify m notice).state.actions = m.actions.record x s.text s.signal) ∨
      m.claim? notice = none ∧ (Observer.notify m notice).state.actions = m.actions := by
  have hrecording := h.recording notice
  generalize (Observer.notify m notice).state.actions = acts at hrecording ⊢
  cases hrecording with
  | claimed _ _ hfirst hplaced hnone =>
    refine Or.inl ⟨_, _, ?_, hnone, rfl⟩
    rw [claim?, hplaced, Option.filter_some_pos (by simpa using hfirst)]
  | shared _ hfirst hplaced =>
    refine Or.inr ⟨?_, rfl⟩
    rw [claim?, hplaced, Option.filter_some_neg (by simpa using hfirst)]
  | unplaced _ hplaced =>
    refine Or.inr ⟨?_, rfl⟩
    rw [claim?, hplaced, Option.filter_none]

/-- The placeholder of an event is abandoned when the event is created again, destroyed or reset. -/
theorem Coherent.abandoned_of_pending (h : m.Coherent)
    (hb : m.binding? event = some (.pending x))
    (hnotice : notice ∈ [.created event, .destroyed event, .hostReset event]) :
    (Observer.notify m notice).state.Abandoned x := by
  have hnode : m.live.node? event = some x := LiveEvents.node?_of_binding? hb
  have hdropped : ∀ live : LiveEvents,
      (∀ other, live.node? other = if event = other then none else m.live.node? other) →
        ({ m with live } : Monitor).Abandoned x := by
    refine fun live hlive => ⟨h.claims.allocated hnode, h.claims.pending hb, fun other hother => ?_⟩
    rw [hlive] at hother
    split at hother
    · cases hother
    · next hne => exact hne (h.claims.node_inj hnode hother)
  have hbind := hdropped (m.live.bind event .unassigned) fun other => LiveEvents.node?_bind _
  simp only [List.mem_cons, List.not_mem_nil, or_false] at hnotice
  obtain rfl | rfl | rfl := hnotice
  · exact hbind
  · exact hdropped _ fun other => LiveEvents.node?_destroy
  · show ({ m with live := (m.live.reset event).2 } : Monitor).Abandoned x
    rw [LiveEvents.reset, if_pos (LiveEvents.contains_iff.2 ⟨_, hb⟩)]
    exact hbind

/-! ## Runs -/

/-- After a run, a node that had no record has that of the first submission placed there. -/
theorem Coherent.get?_afterAll (h : m.Coherent) (notices : List Notice) (x : NodeId) :
    (m.afterAll notices).actions.get? x =
      (m.actions.get? x).or
        (((m.collect placed? notices).find? fun placed => placed.1 = x).map fun placed =>
          placed.2.action) := by
  induction notices generalizing m with
  | nil => rw [collect, List.find?_nil, Option.map_none, Option.or_none]; rfl
  | cons notice notices ih =>
    have hhead : ((m.placed? notice).toList.find? fun placed => placed.1 = x) =
        (m.placed? notice).filter fun placed => placed.1 = x := by
      cases m.placed? notice with
      | none => rfl
      | some placed =>
        by_cases hx : placed.1 = x
        · rw [Option.filter_some_pos (by simpa using hx)]
          simp [hx]
        · rw [Option.filter_some_neg (by simpa using hx)]
          simp [hx]
    calc
      (m.afterAll (notice :: notices)).actions.get? x
        = ((Observer.notify m notice).state.afterAll notices).actions.get? x := rfl
      _ = _ := by
        rw [ih (h.notify notice), h.get?_notify, collect, List.find?_append, hhead, Option.map_or,
          Option.or_assoc]

/-- Only nodes without a record are claimed in a run, and each of them once. -/
theorem Coherent.nodup_claims (h : m.Coherent) (notices : List Notice) :
    ((m.collect claim? notices).map Prod.fst).Nodup ∧
      ∀ x ∈ (m.collect claim? notices).map Prod.fst, m.actions.get? x = none := by
  induction notices generalizing m with
  | nil => exact ⟨List.nodup_nil, nofun⟩
  | cons notice notices ih =>
    obtain ⟨hnodup, hnone⟩ := ih (h.notify notice)
    have hbefore : ∀ x ∈ ((Observer.notify m notice).state.collect claim? notices).map Prod.fst,
        m.actions.get? x = none := by
      intro x hx
      refine Option.eq_none_iff_forall_ne_some.2 fun act hact => ?_
      cases (hnone x hx).symm.trans ((h.grows_notify notice).get? hact)
    rw [collect]
    rcases h.actions_notify notice with ⟨x, s, hclaim, hx, hactions⟩ | ⟨hclaim, -⟩
    · rw [hclaim, Option.toList_some, List.singleton_append, List.map_cons, List.nodup_cons,
        List.forall_mem_cons]
      refine ⟨⟨fun hmem => ?_, hnodup⟩, hx, hbefore⟩
      have hagain := hnone x hmem
      rw [hactions, Actions.get?_record_self] at hagain
      cases hagain
    · rw [hclaim, Option.toList_none, List.nil_append]
      exact ⟨hnodup, hbefore⟩

/-- The records after a run are the old ones and those of the submissions that claim a node. -/
theorem Coherent.actions_afterAll (h : m.Coherent) (notices : List Notice) :
    (m.afterAll notices).actions =
      (m.collect claim? notices).foldl
        (fun acts placed => acts.record placed.1 placed.2.text placed.2.signal) m.actions := by
  induction notices generalizing m with
  | nil => rfl
  | cons notice notices ih =>
    show ((Observer.notify m notice).state.afterAll notices).actions = _
    rw [ih (h.notify notice), collect, List.foldl_append]
    rcases h.actions_notify notice with ⟨x, s, hclaim, -, hactions⟩ | ⟨hclaim, hactions⟩
    · rw [hclaim, hactions]
      rfl
    · rw [hclaim, hactions]
      rfl

/-! ## The number of records -/

/-- The first operation of a generation adds a record, even if it is refused for one of its waits.
-/
theorem Coherent.size_actions_of_first (h : m.Coherent) (hvalid : m.Validates s)
    (hfirst : m.FirstToSignal s) :
    (Observer.notify m (.submitted s)).state.size.actions = m.size.actions + 1 := by
  show (Observer.notify m (.submitted s)).state.actions.size = m.actions.size + 1
  have hrecording := h.recording (.submitted s)
  generalize (Observer.notify m (.submitted s)).state.actions = acts at hrecording ⊢
  cases hrecording with
  | claimed _ _ _ _ hnone => rw [Actions.size_record, hnone, if_neg (by simp)]
  | shared hsubmitted hnot =>
    cases hsubmitted
    exact absurd hfirst hnot
  | unplaced hinvalid => exact absurd hvalid (hinvalid s rfl)

/-- No other notice adds a record. -/
theorem Coherent.size_actions_of_not_first (h : m.Coherent)
    (hnot : ∀ s, notice = .submitted s → ¬ (m.Validates s ∧ m.FirstToSignal s)) :
    (Observer.notify m notice).state.size.actions = m.size.actions := by
  show (Observer.notify m notice).state.actions.size = m.actions.size
  have hrecording := h.recording notice
  generalize (Observer.notify m notice).state.actions = acts at hrecording ⊢
  cases hrecording with
  | claimed hsubmitted hvalid hfirst => exact absurd ⟨hvalid, hfirst⟩ (hnot _ hsubmitted)
  | shared => rfl
  | unplaced => rfl

/-- After any run, the record of a node is that of the first submission of live events that came to
it, and each record was written once.  Whatever the monitor is told later, records, nodes and edges
stay, and the nodes at the two ends of an edge are listed in the order in which the edges came.  A
placeholder that its event leaves before it is signaled is never recorded.  A submission of live
events adds a record exactly if it signals nothing or is the first to signal its event, and no other
notice does. -/
theorem first_signaler_owns (settings : MonitorSettings) (notices : List Notice) :
    let m := (fresh settings).afterAll notices
    let claims := (fresh settings).collect claim? notices
    (∀ x, m.actions.get? x =
      (((fresh settings).collect placed? notices).find? fun placed => placed.1 = x).map
        fun placed => ⟨placed.2.text, placed.2.signal⟩) ∧
    ((claims.map Prod.fst).Nodup ∧
      m.actions = claims.foldl
        (fun acts placed => acts.record placed.1 placed.2.text placed.2.signal) .empty) ∧
    (∀ later, let m' := m.afterAll later
      (∀ x act, m.actions.get? x = some act → m'.actions.get? x = some act) ∧
      (∀ x, m.graph.contains x = true → m'.graph.contains x = true) ∧
      (∀ x y, m.graph.hasEdge x y = true → m'.graph.hasEdge x y = true) ∧
      (∀ x, m.graph.successors x <+: m'.graph.successors x) ∧
      ∀ x, m.graph.predecessors x <+: m'.graph.predecessors x) ∧
    (∀ event x, m.binding? event = some (.pending x) →
      ∀ notice ∈ [.created event, .destroyed event, .hostReset event], ∀ later,
        ((Observer.notify m notice).state.afterAll later).actions.get? x = none) ∧
    (∀ s, m.Validates s → m.FirstToSignal s →
      (Observer.notify m (.submitted s)).state.size.actions = m.size.actions + 1) ∧
    ∀ notice, (∀ s, notice = .submitted s → ¬ (m.Validates s ∧ m.FirstToSignal s)) →
      (Observer.notify m notice).state.size.actions = m.size.actions := by
  intro m claims
  have hfresh : (fresh settings).Coherent := .fresh settings
  have h : m.Coherent := hfresh.afterAll notices
  refine ⟨fun x => ?_, ⟨(hfresh.nodup_claims notices).1, hfresh.actions_afterAll notices⟩,
    fun later => ?_, fun event x hpending notice hnotice later => ?_,
    fun s => h.size_actions_of_first, fun notice => h.size_actions_of_not_first⟩
  · have hnone : (fresh settings).actions.get? x = none := rfl
    rw [hfresh.get?_afterAll, hnone, Option.none_or]
    rfl
  · have hgrows := h.grows_afterAll later
    exact ⟨fun x act => hgrows.get?, fun x => hgrows.contains, fun x y => hgrows.hasEdge,
      hgrows.successors, hgrows.predecessors⟩
  · have habandoned := h.abandoned_of_pending hpending hnotice
    exact (((h.notify notice).grows_afterAll later).abandoned habandoned).2.1

/-- An operation waits on an event that is reset before it is signaled: the placeholder stays
without a record, and the operation that signals the event afterwards has a record of its own. -/
theorem first_signaler_owns_of_reset :
    let waiting : Submission := { operation := .barrier, waits := [⟨1⟩] }
    let m := (fresh {}).afterAll [.created ⟨1⟩, .submitted waiting]
    let signaler : Submission := { operation := .barrier, signal := some ⟨1⟩ }
    m.binding? ⟨1⟩ = some (.pending ⟨1⟩) ∧
      ((Observer.notify m (.hostReset ⟨1⟩)).state.afterAll
        [.submitted signaler]).actions.get? ⟨1⟩ = none ∧
      (Observer.notify m (.submitted signaler)).state.size.actions = m.size.actions + 1 := by
  intro waiting m signaler
  obtain ⟨-, -, -, hleft, hsize, -⟩ := first_signaler_owns {} [.created ⟨1⟩, .submitted waiting]
  have haccept : (Graph.empty.addNode.2.addNode.2.insertEdge ⟨1⟩ ⟨0⟩).1 = true := by
    refine (Graph.insertEdge_of_admits Graph.Sound.empty.addNode.addNode
      ⟨rfl, rfl, by decide, fun hleads => ?_⟩).1
    rcases ReflTransGen.cases_head hleads with heq | ⟨x, hedge, -⟩
    · cases heq
    · exact List.not_mem_nil hedge
  have hsubmit := (submit_of_claiming (m := (fresh {}).afterAll [.created ⟨1⟩]) (s := waiting)
    (by decide +kernel) (.anonymous rfl)).trans (insertWaits_of_accepted rfl haccept)
  have hpending : m.binding? ⟨1⟩ = some (.pending ⟨1⟩) :=
    congrArg (fun r => r.2.binding? ⟨1⟩) hsubmit
  have hvalid : m.Validates signaler := by
    refine ⟨nofun, ?_⟩
    rintro _ ⟨⟩
    exact LiveEvents.contains_iff.2 ⟨_, hpending⟩
  have hfirst : m.FirstToSignal signaler := by
    rintro _ ⟨⟩ b hb
    cases hpending.symm.trans hb
    rfl
  exact ⟨hpending, hleft ⟨1⟩ ⟨1⟩ hpending (.hostReset ⟨1⟩) (by simp) [.submitted signaler],
    hsize signaler hvalid hfirst⟩

end Monitor

end WaitFor
