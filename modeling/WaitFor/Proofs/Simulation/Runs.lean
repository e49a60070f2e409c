import WaitFor.Proofs.Simulation.Steps

/-! # Runs of scenarios, by name

A simulation that runs one scenario after the other stops where the chronicle of names stops.  The
only condition is that its counter of handles does not overflow; `fits_of_names` bounds what the
counter needs by the names that the scenarios mention.
-/

namespace WaitFor

/-- The names that a step mentions. -/
def Step.names : Step → List String
  | .createEvent name => [name]
  | .destroyEvent name => [name]
  | .resetEvent name => [name]
  | .append _ signal waits => signal.toList ++ waits

namespace Chronicle

/-- The chronicle after scenarios, each followed up to its first refusal. -/
def afterRuns (c : Chronicle String) (scenarios : List Scenario) : Chronicle String :=
  scenarios.foldl (fun c scenario => (c.followAll scenario.steps).2) c

end Chronicle

namespace Simulation

variable {κ : Type} [Observer κ] {s t : Simulation κ} {c : Chronicle String}
  {d : Chronicle EventHandle} {step : Step} {steps : List Step} {scenarios : List Scenario}
  {n : Nat}

/-- A step is answered as in the chronicle, with the handle of the name to blame. -/
theorem step_mirrors (h : Mirrors s c d) (hfit : s.Fits (s.mints step + n)) :
    (s.step step).1.refusal?.map (Refusal.map some) =
        (c.follow step).1.map (Refusal.map (s.step step).2.handles.get?) ∧
      (s.step step).2.Fits n ∧ ∃ d, Mirrors (s.step step).2 (c.follow step).2 d := by
  cases step with
  | createEvent name =>
    obtain ⟨hok, hfit, hd⟩ := createEvent_mirrors h name hfit
    exact ⟨congrArg _ (Verdict.refusal?_eq_none.2 hok), hfit, hd⟩
  | destroyEvent name =>
    obtain ⟨hok, hnext, hd⟩ := destroyEvent_mirrors h name
    refine ⟨congrArg _ (Verdict.refusal?_eq_none.2 hok), ?_, hd⟩
    have : s.Fits n := hfit.mono (Nat.le_add_left n 0)
    unfold Fits at this ⊢
    exact hnext ▸ this
  | resetEvent name =>
    obtain ⟨hok, hfit, hd⟩ := resetEvent_mirrors h name hfit
    exact ⟨congrArg _ (Verdict.refusal?_eq_none.2 hok), hfit, hd⟩
  | append operation signal waits => exact append_mirrors h hfit

/-! ## Runs -/

/-- The steps are all accepted and lead from one state to another. -/
inductive Completes : Simulation κ → List Step → Simulation κ → Prop
  | nil (s : Simulation κ) : Completes s [] s
  | cons {s t u : Simulation κ} {step : Step} {steps : List Step} (h : s.step step = (.ok (), t))
      (hrest : Completes t steps u) : Completes s (step :: steps) u

/-- The steps before the one at `position` are accepted, and that one is refused. -/
def StopsAt (s : Simulation κ) (steps : List Step) (position : Nat) (violation : Violation)
    (s' : Simulation κ) : Prop :=
  ∃ t step, s.Completes (steps.take position) t ∧ steps[position]? = some step ∧
    t.step step = (.error violation, s')

/-- A run that goes on after its first step stops one step later. -/
theorem StopsAt.cons {position : Nat} {violation : Violation} {s' : Simulation κ}
    (h : s.step step = (.ok (), t)) (hstop : t.StopsAt steps position violation s') :
    s.StopsAt (step :: steps) (position + 1) violation s' := by
  obtain ⟨u, step', hcompletes, hstep', hrefused⟩ := hstop
  exact ⟨u, step', .cons h hcompletes, hstep', hrefused⟩

/-- How many handles steps mint, up to the first that is refused. -/
def mintsOver (s : Simulation κ) : List Step → Nat
  | [] => 0
  | step :: steps =>
    s.mints step +
      match s.step step with
      | (.error _, _) => 0
      | (.ok (), s) => s.mintsOver steps

/-- Steps stop where the chronicle stops, with the same refusal. -/
theorem runSteps_mirrors (h : Mirrors s c d) (hfit : s.Fits (s.mintsOver steps + n))
    (counts : RunCounts) :
    ((c.followAll steps).1 = none → s.Completes steps (s.runSteps counts steps).2 ∧
      ∃ counts', (s.runSteps counts steps).1 = .ok counts') ∧
    (∀ position refusal, (c.followAll steps).1 = some (position, refusal) →
      ∃ violation, (s.runSteps counts steps).1 = .error violation ∧
        s.StopsAt steps position violation (s.runSteps counts steps).2 ∧
        violation.refusal.map some = refusal.map (s.runSteps counts steps).2.handles.get?) ∧
    (s.runSteps counts steps).2.Fits n ∧
    ∃ d, Mirrors (s.runSteps counts steps).2 (c.followAll steps).2 d := by
  induction steps generalizing s c d counts with
  | nil =>
    rw [mintsOver, Nat.zero_add] at hfit
    refine ⟨fun _ => ⟨.nil s, counts, rfl⟩, fun position refusal hstop => ?_, hfit, d, h⟩
    cases hstop
  | cons step steps ih =>
    rw [mintsOver, Nat.add_assoc] at hfit
    obtain ⟨hanswer, hfit, d', h'⟩ := step_mirrors h hfit
    unfold Chronicle.followAll runSteps
    rcases hstep : s.step step with ⟨violation | ⟨⟩, t⟩
    · rw [hstep] at hanswer hfit h'
      rcases hfollow : c.follow step with ⟨_ | refusal, c'⟩
      · rw [hfollow] at hanswer
        cases hanswer
      · rw [hfollow] at hanswer h'
        refine ⟨fun hstop => ?_, fun position refusal' hstop => ?_, ?_, d', h'⟩
        · cases hstop
        · cases hstop
          exact ⟨violation, rfl, ⟨s, step, .nil s, rfl, hstep⟩, Option.some.inj hanswer⟩
        · exact hfit.mono (Nat.le_add_left n 0)
    · rw [hstep] at hanswer hfit h'
      rcases hfollow : c.follow step with ⟨_ | refusal, c'⟩
      · rw [hfollow] at h'
        obtain ⟨hnone, hsome, hfit, hd⟩ := ih h' hfit (counts.count step)
        refine ⟨fun hstop => ?_, fun position refusal hstop => ?_, hfit, hd⟩
        · obtain ⟨hcompletes, hok⟩ := hnone (Option.map_eq_none_iff.1 hstop)
          exact ⟨.cons hstep hcompletes, hok⟩
        · obtain ⟨⟨position', refusal'⟩, hstop', heq⟩ := Option.map_eq_some_iff.1 hstop
          cases heq
          obtain ⟨violation, hviolation, hat, hrefusal⟩ := hsome position' refusal' hstop'
          exact ⟨violation, hviolation, hat.cons hstep, hrefusal⟩
      · rw [hfollow] at hanswer
        cases hanswer

/-- The simulation after scenarios, each run up to its first violation. -/
def afterRuns (s : Simulation κ) (scenarios : List Scenario) : Simulation κ :=
  scenarios.foldl (fun s scenario => (s.run scenario).2) s

/-- How many handles scenarios mint, one after the other. -/
def mintsOverRuns (s : Simulation κ) : List Scenario → Nat
  | [] => 0
  | scenario :: scenarios =>
    s.mintsOver scenario.steps + (s.run scenario).2.mintsOverRuns scenarios

/-! ## How many handles a run needs -/

omit [Observer κ] in
/-- No more handles are minted for names than there are names. -/
theorem mintsFor_le (s : Simulation κ) (names : List String) : s.mintsFor names ≤ names.length := by
  induction names generalizing s with
  | nil => exact Nat.le_refl 0
  | cons name names ih =>
    have := ih (s.handleOf name).2
    rw [mintsFor, List.length_cons]
    split
    · omega
    · omega

omit [Observer κ] in
/-- No more handles are minted in a step than it has names. -/
theorem mints_le (s : Simulation κ) (step : Step) : s.mints step ≤ step.names.length := by
  cases step with
  | createEvent name =>
    show s.mintsToCreate ≤ 1
    unfold mintsToCreate
    split
    · omega
    · omega
  | destroyEvent name => exact Nat.zero_le _
  | resetEvent name => exact s.mintsFor_le [name]
  | append operation signal waits => exact s.mintsFor_le (signal.toList ++ waits)

/-- No more handles are minted in a run than it has names. -/
theorem mintsOver_le (s : Simulation κ) (steps : List Step) :
    s.mintsOver steps ≤ (steps.flatMap Step.names).length := by
  induction steps generalizing s with
  | nil => exact Nat.le_refl 0
  | cons step steps ih =>
    have := s.mints_le step
    rw [mintsOver, List.flatMap_cons, List.length_append]
    split
    · omega
    · next t _ =>
      have := ih t
      omega

/-- No more handles are minted in runs than they have names. -/
theorem mintsOverRuns_le (s : Simulation κ) (scenarios : List Scenario) :
    s.mintsOverRuns scenarios ≤ ((scenarios.flatMap Scenario.steps).flatMap Step.names).length := by
  induction scenarios generalizing s with
  | nil => exact Nat.le_refl 0
  | cons scenario scenarios ih =>
    have := s.mintsOver_le scenario.steps
    have := ih (s.run scenario).2
    rw [mintsOverRuns, List.flatMap_cons, List.flatMap_append, List.length_append]
    omega

/-- The counter of a fresh simulation has room for scenarios that mention names less often than it
has handles. -/
theorem fits_of_names {layer : Layer κ}
    (h : 0xe000 + 0x40 * ((scenarios.flatMap Scenario.steps).flatMap Step.names).length <
      UInt64.size) :
    ({ layer } : Simulation κ).Fits (({ layer } : Simulation κ).mintsOverRuns scenarios) := by
  have := ({ layer } : Simulation κ).mintsOverRuns_le scenarios
  show 0xe000 + 0x40 * _ < UInt64.size
  omega

/-! ## Runs of a fresh simulation -/

/-- Runs keep a simulation the mirror of its chronicle. -/
theorem afterRuns_mirrors {later : List Scenario} (h : Mirrors s c d)
    (hfit : s.Fits (s.mintsOverRuns (scenarios ++ later))) :
    (s.afterRuns scenarios).Fits ((s.afterRuns scenarios).mintsOverRuns later) ∧
      ∃ d, Mirrors (s.afterRuns scenarios) (c.afterRuns scenarios) d := by
  induction scenarios generalizing s c d with
  | nil => exact ⟨hfit, d, h⟩
  | cons scenario scenarios ih =>
    rw [List.cons_append, mintsOverRuns] at hfit
    obtain ⟨-, -, hfit, d, h⟩ := runSteps_mirrors h hfit {}
    exact ih h hfit

/-- After any scenarios, those that were stopped included, a scenario runs to its end if no step is
refused to its names, and else up to the first such step.  The violation is of the kind of the
refusal, and its event is the one that the name to blame has afterwards. -/
theorem run_follows_chronicle {settings : LayerSettings} (henabled : settings.enabled = true)
    (earlier : List Scenario) (scenario : Scenario)
    (hfit : ({ layer := .fresh settings } : Simulation κ).Fits
      (({ layer := .fresh settings } : Simulation κ).mintsOverRuns (earlier ++ [scenario]))) :
    let s := ({ layer := .fresh settings } : Simulation κ).afterRuns earlier
    let stop := ((Chronicle.afterRuns {} earlier).followAll scenario.steps).1
    (stop = none → s.Completes scenario.steps (s.run scenario).2 ∧
      ∃ counts, (s.run scenario).1 = .ok counts) ∧
    ∀ position refusal, stop = some (position, refusal) →
      ∃ violation, (s.run scenario).1 = .error violation ∧
        s.StopsAt scenario.steps position violation (s.run scenario).2 ∧
        violation.refusal.map some = refusal.map (s.run scenario).2.handles.get? := by
  intro s stop
  obtain ⟨hfit, d, h⟩ := afterRuns_mirrors (.fresh henabled) hfit
  obtain ⟨hnone, hsome, -⟩ := runSteps_mirrors h hfit {}
  exact ⟨hnone, hsome⟩

/-- A circle of three operations, run after a scenario that left an event live: the third operation
is refused, for the event that the name `e1` has then. -/
theorem run_follows_chronicle_of_circle :
    let s := ({ layer := .fresh { enabled := true } } : Simulation Empty).afterRuns
      [.undeclaredWait]
    ∃ violation, (s.run .deadlock).1 = .error violation ∧
      violation.refusal.map some =
        (Refusal.deadlock "e1").map (s.run .deadlock).2.handles.get? := by
  intro s
  have hfit : ({ layer := .fresh { enabled := true } } : Simulation Empty).Fits
      (({ layer := .fresh { enabled := true } } : Simulation Empty).mintsOverRuns
        ([.undeclaredWait] ++ [.deadlock])) := fits_of_names (by decide)
  obtain ⟨-, hstop⟩ := run_follows_chronicle rfl [.undeclaredWait] .deadlock hfit
  obtain ⟨violation, hviolation, -, hrefusal⟩ := hstop 5 (.deadlock "e1") (by decide +kernel)
  exact ⟨violation, hviolation, hrefusal⟩

end Simulation

end WaitFor
