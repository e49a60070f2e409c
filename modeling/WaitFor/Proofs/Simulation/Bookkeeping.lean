import WaitFor.Proofs.Simulation.Answers

/-!
# The books of a simulation

A simulation keeps books on its events: the handles of the named ones, those of the destroyed ones,
and two counters.  The layer below has no say in them, `books_ignore_monitor`: a step sends the
layer one notice at most, and does to the books what `Simulation.keep` says, whatever the answer is.
This takes a layer whose observers object to nothing but an appended operation, since the creation
or destruction of an event that is refused half-way would leave it without a handle, or lose one.
-/

namespace WaitFor

/-- The steps of one scenario and then those of another. -/
def Scenario.followedBy (first second : Scenario) : Scenario :=
  { first with steps := first.steps ++ second.steps }

/-! ## Counts -/

namespace RunCounts

instance : Add RunCounts where
  add a b := ⟨a.steps + b.steps, a.created + b.created, a.appended + b.appended⟩

/-- What a run of all these steps does. -/
def ofSteps (steps : List Step) : RunCounts where
  steps := steps.length
  created := steps.countP Step.creates
  appended := steps.countP Step.appends

theorem add_eq (a b : RunCounts) :
    a + b = ⟨a.steps + b.steps, a.created + b.created, a.appended + b.appended⟩ := rfl

theorem zero_add (counts : RunCounts) : {} + counts = counts := by
  simp [add_eq]

theorem add_zero (counts : RunCounts) : counts + {} = counts := rfl

/-- A step counts the same after any others. -/
theorem count_add (a b : RunCounts) (step : Step) : (a + b).count step = a + b.count step := by
  cases step <;> rfl

/-- Steps are counted one after the other. -/
theorem count_add_ofSteps (counts : RunCounts) (step : Step) (steps : List Step) :
    counts.count step + ofSteps steps = counts + ofSteps (step :: steps) := by
  cases step <;>
    simp [add_eq, count, ofSteps, List.countP_cons, Step.creates, Step.appends] <;> omega

end RunCounts

/-! ## Layers with nothing but monitors -/

namespace Layer

variable {κ : Type} {l : Layer κ} {notice : Notice}

/-- Every observer of the layer is a deadlock monitor, in whatever state.  There may be none. -/
def OnlyMonitors (l : Layer κ) : Prop := ∀ slot ∈ l.slots, ∃ m, slot.observer = .deadlock m

/-- Where nobody observes, all observers are monitors. -/
theorem onlyMonitors_of_unobserved (h : l.slots = []) : l.OnlyMonitors := by
  rw [OnlyMonitors, h]
  nofun

variable [Observer κ]

/-- A layer that was set up hosts monitors only. -/
theorem onlyMonitors_fresh (settings : LayerSettings) :
    (fresh settings : Layer κ).OnlyMonitors := by
  rw [fresh]
  split
  · exact List.forall_mem_singleton.2 ⟨_, rfl⟩
  · exact onlyMonitors_of_unobserved rfl

/-- A monitor stays one, and objects to nothing but an appended operation. -/
theorem OnlyMonitors.slot (h : l.OnlyMonitors) {slot : Slot κ} (hslot : slot ∈ l.slots)
    (notice : Notice) :
    (∃ m, (slot.after [notice]).observer = .deadlock m) ∧
      ((∀ s, notice ≠ .submitted s) → slot.verdict notice = .ok ()) := by
  obtain ⟨m, hm⟩ := h slot hslot
  constructor
  · refine ⟨(m.step notice).2, ?_⟩
    rw [Slot.after, hm]
    rfl
  · intro hother
    rw [Slot.verdict, hm]
    cases notice with
    | submitted s => exact absurd rfl (hother s)
    | _ => rfl

/-- Monitors object to submissions only, and stay monitors. -/
theorem OnlyMonitors.told {r : Verdict × Layer κ} (h : l.OnlyMonitors) (htold : Told notice l r) :
    r.2.OnlyMonitors ∧ ((∀ s, notice ≠ .submitted s) → r.1 = .ok ()) := by
  cases htold with
  | accepted _ =>
    refine ⟨?_, fun _ => rfl⟩
    exact List.forall_mem_map.2 fun slot hslot => (h.slot hslot notice).1
  | @refused before after slot _ hslots _ hrefused =>
    have hmem : ∀ other, other ∈ before ++ [slot] ∨ other ∈ after → other ∈ l.slots := by
      intro other
      rw [hslots, ← List.mem_append, List.append_assoc, List.singleton_append]
      exact id
    constructor
    · refine List.forall_mem_append.2 ⟨List.forall_mem_map.2 fun other hother => ?_, ?_⟩
      · exact (h.slot (hmem other (Or.inl hother)) notice).1
      · exact fun other hother => h other (hmem other (Or.inr hother))
    · intro hother
      have hslot := hmem slot (Or.inl (List.mem_append_right before List.mem_cons_self))
      rw [(h.slot hslot notice).2 hother] at hrefused
      cases hrefused

/-- No notice brings in another kind of observer. -/
theorem OnlyMonitors.deliver (h : l.OnlyMonitors) (notice? : Option Notice) :
    (l.deliver notice?).2.OnlyMonitors := by
  cases notice? with
  | none => exact h
  | some notice => exact (h.told (l.deliver_told notice)).1

/-- Monitors accept all that is no submission. -/
theorem OnlyMonitors.deliver_ok (h : l.OnlyMonitors) (notice : Notice)
    (hother : ∀ s, notice ≠ .submitted s) : (l.deliver (some notice)).1 = .ok () :=
  (h.told (l.deliver_told notice)).2 hother

/-- Nobody objects where nobody observes. -/
theorem deliver_of_unobserved (h : l.slots = []) (notice? : Option Notice) :
    (l.deliver notice?).1 = .ok () ∧ (l.deliver notice?).2.slots = [] := by
  cases notice? with
  | none => exact ⟨rfl, h⟩
  | some notice =>
    rw [Layer.deliver, h]
    exact ⟨rfl, rfl⟩

end Layer

namespace Simulation

variable {κ : Type} {s t u : Simulation κ} {name : String} {event : EventHandle}

/-! ## Books -/

/-- The books say the same: every name has the same handle, the same handles of destroyed events are
handed out in the same order, and both counters stand alike. -/
structure SameBooks (s t : Simulation κ) : Prop where
  handles : ∀ name, s.handles.get? name = t.handles.get? name
  free : s.free = t.free
  nextHandle : s.nextHandle = t.nextHandle
  nextIndex : s.nextIndex = t.nextIndex

/-- What a step does to the books; the layer is left alone. -/
def keep (s : Simulation κ) : Step → Simulation κ
  | .createEvent name =>
    let (event, s) := { s with nextIndex := s.nextIndex + 1 }.takeHandle
    { s with handles := s.handles.insert name event }
  | .destroyEvent name =>
    match s.handles.get? name with
    | none => s
    | some event => { s with handles := s.handles.erase name, free := event :: s.free }
  | .resetEvent name => (s.handleOf name).2
  | .append _ signal waits => ((s.optionalHandle signal).2.handlesOf waits).2

/-- What steps do to the books. -/
def keepAll (s : Simulation κ) (steps : List Step) : Simulation κ := steps.foldl keep s

namespace SameBooks

theorem refl (s : Simulation κ) : SameBooks s s := ⟨fun _ => rfl, rfl, rfl, rfl⟩

theorem symm (h : SameBooks s t) : SameBooks t s :=
  ⟨fun name => (h.handles name).symm, h.free.symm, h.nextHandle.symm, h.nextIndex.symm⟩

theorem trans (h : SameBooks s t) (h' : SameBooks t u) : SameBooks s u :=
  ⟨fun name => (h.handles name).trans (h'.handles name), h.free.trans h'.free,
    h.nextHandle.trans h'.nextHandle, h.nextIndex.trans h'.nextIndex⟩

/-- The layer is not in the books. -/
theorem of_layer (s : Simulation κ) (layer : Layer κ) : SameBooks { s with layer } s :=
  ⟨fun _ => rfl, rfl, rfl, rfl⟩

/-- A name that is given in both books is given alike. -/
theorem insert {event' : EventHandle} (h : SameBooks s t) (name : String)
    (hevent : event = event') :
    SameBooks { s with handles := s.handles.insert name event }
      { t with handles := t.handles.insert name event' } := by
  refine { h with handles := fun other => ?_ }
  rw [hevent, Table.get?_insert, Table.get?_insert, h.handles]

/-- A name that is struck from both books frees the same handle. -/
theorem destroy (h : SameBooks s t) (name : String) (event : EventHandle) :
    SameBooks { s with handles := s.handles.erase name, free := event :: s.free }
      { t with handles := t.handles.erase name, free := event :: t.free } := by
  refine { h with handles := fun other => ?_, free := congrArg (List.cons event) h.free }
  rw [Table.get?_erase, Table.get?_erase, h.handles]

/-- The same books mint the same handle. -/
theorem mintHandle (h : SameBooks s t) :
    s.mintHandle.1 = t.mintHandle.1 ∧ SameBooks s.mintHandle.2 t.mintHandle.2 :=
  ⟨congrArg EventHandle.mk h.nextHandle,
    { h with nextHandle := congrArg (· + handleStep) h.nextHandle }⟩

/-- The same books hand out the same handle. -/
theorem takeHandle (h : SameBooks s t) :
    s.takeHandle.1 = t.takeHandle.1 ∧ SameBooks s.takeHandle.2 t.takeHandle.2 := by
  unfold Simulation.takeHandle
  rw [h.free]
  split
  · exact ⟨rfl, { h with free := rfl }⟩
  · exact h.mintHandle

/-- The same books know a name by the same handle. -/
theorem handleOf (h : SameBooks s t) (name : String) :
    (s.handleOf name).1 = (t.handleOf name).1 ∧
      SameBooks (s.handleOf name).2 (t.handleOf name).2 := by
  unfold Simulation.handleOf
  rw [h.handles]
  split
  · exact ⟨rfl, h⟩
  · obtain ⟨hevent, hbooks⟩ := h.mintHandle
    exact ⟨hevent, hbooks.insert name hevent⟩

/-- Looking up the same names leaves the books alike. -/
theorem handlesOf (h : SameBooks s t) (names : List String) :
    SameBooks (s.handlesOf names).2 (t.handlesOf names).2 := by
  induction names generalizing s t with
  | nil => exact h
  | cons name names ih => exact ih (h.handleOf name).2

/-- Looking up the name of a signal leaves the books alike. -/
theorem optionalHandle (h : SameBooks s t) (name : Option String) :
    SameBooks (s.optionalHandle name).2 (t.optionalHandle name).2 := by
  cases name with
  | none => exact h
  | some name => exact (h.handleOf name).2

/-- What a step does to the books depends on nothing else. -/
theorem keep (h : SameBooks s t) (step : Step) : SameBooks (s.keep step) (t.keep step) := by
  cases step with
  | createEvent name =>
    have hindex : SameBooks { s with nextIndex := s.nextIndex + 1 }
        { t with nextIndex := t.nextIndex + 1 } :=
      { h with nextIndex := congrArg (· + 1) h.nextIndex }
    obtain ⟨hevent, hbooks⟩ := hindex.takeHandle
    exact hbooks.insert name hevent
  | destroyEvent name =>
    rw [Simulation.keep, Simulation.keep, h.handles]
    split
    · exact h
    · exact h.destroy name _
  | resetEvent name => exact (h.handleOf name).2
  | append operation signal waits => exact (h.optionalHandle signal).handlesOf waits

end SameBooks

/-! ## Steps -/

variable [Observer κ]

/-- A step tells the layer one thing at most, and of an operation only if it appends one.  The
books are kept whatever the answer is. -/
theorem exists_step_eq (h : s.layer.OnlyMonitors) (step : Step) :
    ∃ notice? : Option Notice, s.step step = ((s.layer.deliver notice?).1,
        { s.keep step with layer := (s.layer.deliver notice?).2 }) ∧
      ∀ submission, notice? = some (.submitted submission) → step.appends = true := by
  refine ⟨s.notice? step, ?_, fun submission => notice?_eq_submitted⟩
  have hkeep : s.settle (s.layer.deliver (s.notice? step)).1.isOk step = s.keep step := by
    cases step with
    | createEvent name =>
      have hok := h.deliver_ok (.created s.takeHandle.1) (by simp)
      rw [Simulation.notice?, hok]
      rfl
    | destroyEvent name =>
      rw [Simulation.notice?, settle, keep]
      cases hname : s.handles.get? name with
      | none => rfl
      | some event =>
        have hok := h.deliver_ok (.destroyed event) (by simp)
        rw [Option.map_some, hok]
        rfl
    | resetEvent name => rfl
    | append operation signal waits => rfl
  rw [step_eq, hkeep]

/-- A step of a simulation whose layer hosts nothing but monitors keeps the books, whether it is
refused or not, and only an append is. -/
theorem step_keeps (h : s.layer.OnlyMonitors) (step : Step) :
    (s.step step).2.layer.OnlyMonitors ∧ SameBooks (s.step step).2 (s.keep step) ∧
      ∀ {violation}, (s.step step).1 = .error violation → step.appends = true := by
  obtain ⟨notice?, hstep, happends⟩ := exists_step_eq h step
  rw [hstep]
  refine ⟨h.deliver notice?, .of_layer _ _, fun {violation} hrefused => ?_⟩
  by_contra happend
  cases notice? with
  | none => cases hrefused
  | some notice =>
    have hok := h.deliver_ok notice fun submission heq => happend (happends submission (heq ▸ rfl))
    rw [hok] at hrefused
    cases hrefused

/-- Where nobody observes, every step is accepted. -/
theorem step_of_unobserved (h : s.layer.slots = []) (step : Step) :
    (s.step step).1 = .ok () ∧ (s.step step).2.layer.slots = [] := by
  obtain ⟨notice?, hstep, -⟩ := exists_step_eq (Layer.onlyMonitors_of_unobserved h) step
  rw [hstep]
  exact Layer.deliver_of_unobserved h notice?

/-! ## Runs -/

/-- A run up to its end or to a refused append has kept the books of the steps behind it, the
refused one included. -/
theorem runSteps_keeps (h : s.layer.OnlyMonitors) (hbooks : SameBooks s t) (counts : RunCounts)
    (steps : List Step) :
    (s.runSteps counts steps).2.layer.OnlyMonitors ∧
    (∀ counts', (s.runSteps counts steps).1 = .ok counts' →
      counts' = counts + .ofSteps steps ∧
        SameBooks (s.runSteps counts steps).2 (t.keepAll steps)) ∧
    ∀ violation, (s.runSteps counts steps).1 = .error violation →
      ∃ position step, steps[position]? = some step ∧ step.appends = true ∧
        s.StopsAt steps position violation (s.runSteps counts steps).2 ∧
        SameBooks (s.runSteps counts steps).2 (t.keepAll (steps.take (position + 1))) := by
  induction steps generalizing s t counts with
  | nil =>
    refine ⟨h, fun counts' hok => ?_, nofun⟩
    cases hok
    exact ⟨rfl, hbooks⟩
  | cons step steps ih =>
    obtain ⟨hmonitors, hkeep, happends⟩ := step_keeps h step
    have hkeep := hkeep.trans (hbooks.keep step)
    rw [runSteps]
    rcases hstep : s.step step with ⟨violation | ⟨⟩, s'⟩
    · rw [hstep] at hmonitors hkeep happends
      refine ⟨hmonitors, nofun, fun violation' hrefused => ?_⟩
      cases hrefused
      exact ⟨0, step, rfl, happends rfl, ⟨s, step, .nil s, rfl, hstep⟩, hkeep⟩
    · rw [hstep] at hmonitors hkeep
      obtain ⟨hmonitors, hok, herror⟩ := ih hmonitors hkeep (counts.count step)
      refine ⟨hmonitors, fun counts' hcounts => ?_, fun violation hrefused => ?_⟩
      · obtain ⟨rfl, hbooks⟩ := hok counts' hcounts
        exact ⟨counts.count_add_ofSteps step steps, hbooks⟩
      · obtain ⟨position, step', hat, hstep', hstops, hbooks⟩ := herror violation hrefused
        exact ⟨position + 1, step', hat, hstep', hstops.cons hstep, hbooks⟩

/-- Where nobody observes, every run is completed. -/
theorem runSteps_of_unobserved (h : s.layer.slots = []) (counts : RunCounts) (steps : List Step) :
    (s.runSteps counts steps).1 = .ok (counts + .ofSteps steps) := by
  induction steps generalizing s counts with
  | nil => rfl
  | cons step steps ih =>
    obtain ⟨hok, hslots⟩ := step_of_unobserved h step
    rw [runSteps]
    rcases hstep : s.step step with ⟨violation | ⟨⟩, s'⟩
    · rw [hstep] at hok
      cases hok
    · rw [hstep] at hslots
      rw [← counts.count_add_ofSteps]
      exact ih hslots (counts.count step)

/-- Scenarios leave a layer with nothing but monitors as one. -/
theorem onlyMonitors_afterRuns (h : s.layer.OnlyMonitors) (scenarios : List Scenario) :
    (s.afterRuns scenarios).layer.OnlyMonitors := by
  induction scenarios generalizing s with
  | nil => exact h
  | cons scenario scenarios ih => exact ih (runSteps_keeps h (.refl s) {} scenario.steps).1

/-- Counts that a run starts from are added to those that it makes. -/
theorem runSteps_add (s : Simulation κ) (a b : RunCounts) (steps : List Step) :
    s.runSteps (a + b) steps =
      ((s.runSteps b steps).1.map (a + ·), (s.runSteps b steps).2) := by
  induction steps generalizing s b with
  | nil => rfl
  | cons step steps ih =>
    rw [runSteps, runSteps]
    rcases s.step step with ⟨violation | ⟨⟩, s'⟩
    · rfl
    · rw [RunCounts.count_add]
      exact ih s' (b.count step)

/-- The second part of a run starts where the first one ended, if it was completed. -/
theorem runSteps_append (s : Simulation κ) (counts : RunCounts) (first second : List Step) :
    s.runSteps counts (first ++ second) =
      match s.runSteps counts first with
      | (.ok counts, t) => t.runSteps counts second
      | (.error violation, t) => (.error violation, t) := by
  induction first generalizing s counts with
  | nil => rfl
  | cons step first ih =>
    rw [List.cons_append, runSteps, runSteps]
    rcases s.step step with ⟨violation | ⟨⟩, s'⟩
    · rfl
    · exact ih s' (counts.count step)

/-- The books of a simulation do not depend on its monitors.  Let two simulations have the same
books, one with a layer of monitors in any state and the other with a layer that nobody observes.
The latter completes every scenario, with the counts of all its steps.  The former either completes
the scenario as well, with the same counts and the same books, or stops at an append, with the books
that the latter has after the steps up to and including that one.  And a scenario may be run in two
parts: the counts add up, and where the first part is stopped the second changes nothing. -/
theorem books_ignore_monitor (hs : s.layer.OnlyMonitors) (ht : t.layer.slots = [])
    (hbooks : SameBooks s t) (scenario : Scenario) :
    (t.run scenario).1 = .ok (.ofSteps scenario.steps) ∧
    (∀ counts, (s.run scenario).1 = .ok counts →
      (t.run scenario).1 = .ok counts ∧ SameBooks (s.run scenario).2 (t.run scenario).2) ∧
    (∀ violation, (s.run scenario).1 = .error violation →
      ∃ position operation signal waits,
        scenario.steps[position]? = some (.append operation signal waits) ∧
        s.StopsAt scenario.steps position violation (s.run scenario).2 ∧
        SameBooks (s.run scenario).2
          (t.run { scenario with steps := scenario.steps.take (position + 1) }).2) ∧
    ∀ (u : Simulation κ) (first second : Scenario),
      (∀ counts v, u.run first = (.ok counts, v) →
        u.run (first.followedBy second) =
          ((v.run second).1.map (counts + ·), (v.run second).2)) ∧
      ∀ violation v, u.run first = (.error violation, v) →
        u.run (first.followedBy second) = (.error violation, v) := by
  have hcounts : ∀ steps, (t.runSteps {} steps).1 = .ok (.ofSteps steps) := by
    intro steps
    rw [runSteps_of_unobserved ht, RunCounts.zero_add]
  have hkept : ∀ steps, SameBooks (t.runSteps {} steps).2 (t.keepAll steps) := by
    intro steps
    have hmonitors := Layer.onlyMonitors_of_unobserved ht
    exact ((runSteps_keeps hmonitors (.refl t) {} steps).2.1 _ (hcounts steps)).2
  obtain ⟨-, hok, herror⟩ := runSteps_keeps hs hbooks {} scenario.steps
  refine ⟨hcounts scenario.steps, ?_, ?_, fun u first second => ⟨?_, ?_⟩⟩
  · intro counts hrun
    obtain ⟨rfl, hend⟩ := hok counts hrun
    rw [RunCounts.zero_add]
    exact ⟨hcounts scenario.steps, hend.trans (hkept scenario.steps).symm⟩
  · intro violation hrun
    obtain ⟨position, step, hat, happends, hstops, hend⟩ := herror violation hrun
    cases step with
    | append operation signal waits =>
      exact ⟨position, operation, signal, waits, hat, hstops, hend.trans (hkept _).symm⟩
    | _ => cases happends
  · intro counts v hrun
    have hfirst : u.runSteps {} first.steps = (.ok counts, v) := hrun
    show u.runSteps {} (first.steps ++ second.steps) = _
    rw [runSteps_append, hfirst]
    -- The second part starts from the counts of the first, which is to add them at the end.
    have hadd := v.runSteps_add counts {} second.steps
    rwa [RunCounts.add_zero] at hadd
  · intro violation v hrun
    have hfirst : u.runSteps {} first.steps = (.error violation, v) := hrun
    show u.runSteps {} (first.steps ++ second.steps) = _
    rw [runSteps_append, hfirst]

/-- A wait on an event that was never created, after a run that was stopped for the same reason:
without the monitor the run goes on to its end, and with it the run stops on the way, with the same
books up to there. -/
theorem books_ignore_monitor_of_undeclared_wait :
    let s := ({ layer := .fresh { enabled := true } } : Simulation Empty).afterRuns
      [.undeclaredWait]
    let t := { s with layer := .empty }
    (s.layer.OnlyMonitors ∧ t.layer.slots = [] ∧ SameBooks s t) ∧
      (t.run .undeclaredWait).1 = .ok ⟨3, 1, 1⟩ ∧
      ∃ violation position, (s.run .undeclaredWait).1 = .error violation ∧
        SameBooks (s.run .undeclaredWait).2
          (t.run { Scenario.undeclaredWait with
            steps := Scenario.undeclaredWait.steps.take (position + 1) }).2 := by
  intro s t
  have hs : s.layer.OnlyMonitors := onlyMonitors_afterRuns (Layer.onlyMonitors_fresh _) _
  have hbooks : SameBooks s t := (SameBooks.of_layer s .empty).symm
  obtain ⟨hend, -, hstop, -⟩ := books_ignore_monitor hs rfl hbooks .undeclaredWait
  refine ⟨⟨hs, rfl, hbooks⟩, hend, ?_⟩
  have hrefused : (s.run .undeclaredWait).1.isOk = false := by decide +kernel
  cases hrun : (s.run .undeclaredWait).1 with
  | ok counts =>
    rw [hrun] at hrefused
    cases hrefused
  | error violation =>
    obtain ⟨position, _, _, _, -, -, hbooks⟩ := hstop violation hrun
    exact ⟨violation, position, rfl, hbooks⟩

end Simulation

end WaitFor
