import WaitFor.Proofs.Monitor.Verdicts

/-! # Which submissions are refused

The waits of a submission are judged one after the other, in graphs that each of them changes.  But
no wait opens a way out of the node that waits, so the verdict can be read off the graph as it was
before the submission.
-/

namespace WaitFor.Monitor

open Relation

variable {m : Monitor} {c : Chronicle EventHandle} {s : Submission}

/-- A wait of the submission on `event` would close a cycle: `event` is the one that the submission
signals, or its node can be reached from the node of that one. -/
def Closes (m : Monitor) (s : Submission) (event : EventHandle) : Prop :=
  ∃ signal ∈ s.signal, event = signal ∨
    ∃ x y, m.nodeOf? signal = some x ∧ m.nodeOf? event = some y ∧ m.graph.Leads x y

section Live

variable (h : m.Agrees c) (hwaits : ∀ event ∈ s.waits, m.live.contains event = true)
  (hsignal : ∀ event ∈ s.signal, m.live.contains event = true)

include h hwaits hsignal

open Classical in
/-- A submission of live events is refused for the first of its waits that closes a cycle in the
graph before it. -/
theorem refusal?_submitted :
    (Observer.notify m (.submitted s)).verdict.refusal? =
      (s.waits.find? fun event => m.Closes s event).map .deadlock := by
  rw [(notify_agrees h (.submitted s)).1, Chronicle.heed]
  obtain ⟨node, h⟩ := h
  rw [Chronicle.append_fst (fun event he => h.contains event ▸ hsignal event he)
    fun event he => h.contains event ▸ hwaits event he]
  cases hs : s.signal with
  | none =>
    rw [List.find?_eq_none.2, Option.bind_none, Option.map_none]
    intro event _
    simp [Closes, hs]
  | some signal =>
    rw [Option.bind_some]
    congr 1
    refine List.find?_congr fun event hevent => decide_eq_decide.2 ?_
    rw [h.blocks_iff (hsignal signal hs) (hwaits event hevent), Closes, hs]
    simp only [Option.mem_some, exists_eq_left']
    rfl

/-- The only violation that a submission of live events can be is a deadlock. -/
theorem verdict_ok_or_deadlock :
    (Observer.notify m (.submitted s)).verdict = .ok () ∨
      ∃ report, (Observer.notify m (.submitted s)).verdict = .error (.deadlock report) := by
  classical
  have hrefusal := refusal?_submitted h hwaits hsignal
  cases hfind : s.waits.find? fun event => m.Closes s event with
  | none =>
    rw [hfind] at hrefusal
    exact Or.inl (Verdict.refusal?_eq_none.1 hrefusal)
  | some event =>
    rw [hfind] at hrefusal
    obtain ⟨report, hreport, -⟩ := Verdict.refusal?_eq_deadlock.1 hrefusal
    exact Or.inr ⟨report, hreport⟩

/-- A submission of live events is accepted if and only if none of its waits closes a cycle. -/
theorem verdict_eq_ok_iff :
    (Observer.notify m (.submitted s)).verdict = .ok () ↔
      ∀ event ∈ s.waits, ¬ m.Closes s event := by
  classical
  rw [← Verdict.refusal?_eq_none, refusal?_submitted h hwaits hsignal, Option.map_eq_none_iff,
    List.find?_eq_none]
  simp only [decide_eq_true_iff]

/-- A submission of live events is refused for a wait if and only if that is the first of its waits
that closes a cycle. -/
theorem verdict_eq_deadlock_iff (event : EventHandle) :
    (∃ report, (Observer.notify m (.submitted s)).verdict = .error (.deadlock report) ∧
        report.waitEvent = event) ↔
      m.Closes s event ∧ ∃ before after, s.waits = before ++ event :: after ∧
        ∀ other ∈ before, ¬ m.Closes s other := by
  classical
  rw [← Verdict.refusal?_eq_deadlock, refusal?_submitted h hwaits hsignal, Option.map_eq_some_iff]
  simp only [Refusal.deadlock.injEq, exists_eq_right]
  rw [List.find?_eq_some_iff_append]
  simp only [decide_eq_true_iff, Bool.not_eq_true', decide_eq_false_iff_not]

end Live

/-- After any run, a submission of live events is refused if and only if one of its waits closes a
cycle in the graph before it, and then for the first such wait.  It is accepted if it signals
nothing, or an event that no operation has referred to and that it does not wait on. -/
theorem deadlock_iff_closes (settings : MonitorSettings) (notices : List Notice) (s : Submission)
    (hwaits : ∀ event ∈ s.waits, ((fresh settings).afterAll notices).live.contains event = true)
    (hsignal : ∀ event ∈ s.signal, ((fresh settings).afterAll notices).live.contains event = true) :
    let m := (fresh settings).afterAll notices
    let verdict := (Observer.notify m (.submitted s)).verdict
    (verdict = .ok () ∨ ∃ report, verdict = .error (.deadlock report)) ∧
      ((∃ report, verdict = .error (.deadlock report)) ↔ ∃ event ∈ s.waits, m.Closes s event) ∧
      (∀ report, verdict = .error (.deadlock report) →
        m.Closes s report.waitEvent ∧
          ∃ before after, s.waits = before ++ report.waitEvent :: after ∧
            ∀ event ∈ before, ¬ m.Closes s event) ∧
      (s.signal = none → verdict = .ok ()) ∧
      ∀ signal, s.signal = some signal → m.binding? signal = some .unassigned →
        signal ∉ s.waits → verdict = .ok () := by
  intro m verdict
  obtain ⟨c, h⟩ := afterAll_agrees (agrees_fresh settings) notices
  have hok := verdict_eq_ok_iff h hwaits hsignal
  have hfirst := verdict_eq_deadlock_iff h hwaits hsignal
  have hcases := verdict_ok_or_deadlock h hwaits hsignal
  refine ⟨hcases, ⟨?_, ?_⟩, ?_, ?_, ?_⟩
  · rintro ⟨report, hreport⟩
    obtain ⟨hcloses, before, after, hsplit, -⟩ := (hfirst report.waitEvent).1 ⟨report, hreport, rfl⟩
    refine ⟨report.waitEvent, ?_, hcloses⟩
    rw [hsplit]
    exact List.mem_append_right before List.mem_cons_self
  · rintro ⟨event, hevent, hcloses⟩
    rcases hcases with haccepted | hrefused
    · exact absurd hcloses (hok.1 haccepted event hevent)
    · exact hrefused
  · intro report hreport
    exact (hfirst report.waitEvent).1 ⟨report, hreport, rfl⟩
  · intro hnone
    refine hok.2 fun event _ hcloses => ?_
    obtain ⟨signal, hsignal, -⟩ := hcloses
    rw [hnone] at hsignal
    exact absurd hsignal (Option.not_mem_none signal)
  · intro signal hsome hunassigned hmem
    refine hok.2 fun event hevent hcloses => ?_
    obtain ⟨signal', hsignal', hcloses⟩ := hcloses
    rw [hsome] at hsignal'
    obtain rfl := Option.some.inj hsignal'
    rcases hcloses with rfl | ⟨x, y, hx, -, -⟩
    · exact hmem hevent
    · rw [nodeOf?, hunassigned] at hx
      exact absurd hx (by simp [Binding.node?])

/-- An operation that signals an event again may not wait on what waited for the event. -/
theorem deadlock_iff_closes_of_pair :
    ∃ report, (Observer.notify ((fresh {}).afterAll [.created ⟨1⟩, .created ⟨2⟩,
        .submitted { operation := .barrier, signal := some ⟨1⟩ },
        .submitted { operation := .barrier, signal := some ⟨2⟩, waits := [⟨1⟩] }])
      (.submitted { operation := .barrier, signal := some ⟨1⟩, waits := [⟨2⟩] })).verdict =
        .error (.deadlock report) := by
  obtain ⟨-, hrefused, -⟩ := deadlock_iff_closes {} [.created ⟨1⟩, .created ⟨2⟩,
      .submitted { operation := .barrier, signal := some ⟨1⟩ },
      .submitted { operation := .barrier, signal := some ⟨2⟩, waits := [⟨1⟩] }]
    { operation := .barrier, signal := some ⟨1⟩, waits := [⟨2⟩] }
    (by decide +kernel) (by decide +kernel)
  refine hrefused.2 ⟨⟨2⟩, List.mem_singleton_self _, ⟨1⟩, rfl, Or.inr ⟨⟨0⟩, ⟨1⟩, ?_, ?_, ?_⟩⟩
  · decide +kernel
  · decide +kernel
  · exact ReflTransGen.single (List.mem_of_elem_eq_true (by decide +kernel))

end WaitFor.Monitor
