import WaitFor.Proofs.Simulation.Runs

/-! # What the answer to a step does

A step of a simulation tells its layer one thing at most (`Simulation.notice?`), whatever observers
the layer has.  The answer decides two things about the handles (`Simulation.settle`): a handle that
was taken for an event goes to its name only if the creation is accepted, and the handle of an event
goes to the free ones only if its destruction is. -/

namespace WaitFor

/-- The step creates an event. -/
def Step.creates : Step → Bool
  | createEvent _ => true
  | _ => false

/-- The step appends an operation. -/
def Step.appends : Step → Bool
  | append .. => true
  | _ => false

namespace Simulation

variable {κ : Type} {s : Simulation κ} {name : String} {event : EventHandle} {n : Nat}
  {step : Step}

/-- What a step tells the layer, if it tells it anything. -/
def notice? (s : Simulation κ) : Step → Option Notice
  | .createEvent _ => some (.created s.takeHandle.1)
  | .destroyEvent name => (s.handles.get? name).map .destroyed
  | .resetEvent name => some (.hostReset (s.handleOf name).1)
  | .append operation signal waits =>
    let (signal, s) := s.optionalHandle signal
    some (.submitted { commandList, operation, signal, waits := (s.handlesOf waits).1 })

/-- What a step that is accepted or not does to handles and counters; the layer is left alone. -/
def settle (s : Simulation κ) (accepted : Bool) : Step → Simulation κ
  | .createEvent name =>
    let (event, s) := { s with nextIndex := s.nextIndex + 1 }.takeHandle
    if accepted then { s with handles := s.handles.insert name event } else s
  | .destroyEvent name =>
    match s.handles.get? name with
    | none => s
    | some event =>
      let s := { s with handles := s.handles.erase name }
      if accepted then { s with free := event :: s.free } else s
  | .resetEvent name => (s.handleOf name).2
  | .append _ signal waits => ((s.optionalHandle signal).2.handlesOf waits).2

/-- Submissions come from appends. -/
theorem notice?_eq_submitted {submission : Submission}
    (h : s.notice? step = some (.submitted submission)) : step.appends = true := by
  cases step with
  | append => rfl
  | destroyEvent name =>
    obtain ⟨event, -, heq⟩ := Option.map_eq_some_iff.1 h
    cases heq
  | createEvent name => cases h
  | resetEvent name => cases h

/-- The names of an append are resolved together. -/
theorem settle_append (s : Simulation κ) (accepted : Bool) (operation : Operation)
    (signal : Option String) (waits : List String) :
    s.settle accepted (.append operation signal waits) =
      (s.handlesOf (signal.toList ++ waits)).2 := by
  cases signal with
  | none => rfl
  | some name => rfl

/-! ## Steps -/

/-- Which handle is taken does not depend on the index of the next event. -/
theorem takeHandle_fst (s : Simulation κ) (nextIndex : UInt32) :
    { s with nextIndex }.takeHandle.1 = s.takeHandle.1 := by
  obtain ⟨layer, handles, free, nextHandle, index⟩ := s
  cases free with
  | nil => rfl
  | cons event free => rfl

/-- Looking a handle up does not touch the layer. -/
theorem layer_handleOf (s : Simulation κ) (name : String) :
    (s.handleOf name).2.layer = s.layer := by
  unfold handleOf
  split
  · rfl
  · rfl

/-- Looking handles up does not touch the layer. -/
theorem layer_handlesOf (s : Simulation κ) (names : List String) :
    (s.handlesOf names).2.layer = s.layer := by
  induction names generalizing s with
  | nil => rfl
  | cons name names ih => exact (ih (s.handleOf name).2).trans (s.layer_handleOf name)

/-- Looking up the handle of a signal, if there is one, does not touch the layer. -/
theorem layer_optionalHandle (s : Simulation κ) (name : Option String) :
    (s.optionalHandle name).2.layer = s.layer := by
  cases name with
  | none => rfl
  | some name => exact s.layer_handleOf name

variable [Observer κ]

/-- A call is what the layer delivers. -/
theorem call_eq_deliver (s : Simulation κ) (c : Call) {layer : Layer κ} (h : s.layer = layer) :
    s.call c = ((layer.deliver (Layer.notice? (c, .success))).1,
      { s with layer := (layer.deliver (Layer.notice? (c, .success))).2 }) := by
  rw [call, Layer.call_eq_deliver, h]

/-- A step tells the layer one thing at most, and settles the handles by the answer. -/
theorem step_eq (s : Simulation κ) (step : Step) :
    s.step step = ((s.layer.deliver (s.notice? step)).1,
      { s.settle (s.layer.deliver (s.notice? step)).1.isOk step with
        layer := (s.layer.deliver (s.notice? step)).2 }) := by
  cases step with
  | createEvent name =>
    -- The one notice comes after the call, when the index is used up and the handle is taken.
    let s₁ : Simulation κ := { s with nextIndex := s.nextIndex + 1 }
    obtain ⟨event, t, ht⟩ : ∃ event t, s₁.takeHandle = (event, t) := ⟨_, _, rfl⟩
    have hlayer : t.layer = s.layer := by
      have := (takeHandle_fields s₁).1
      rwa [ht] at this
    have hevent : s.takeHandle.1 = event := by
      rw [← s.takeHandle_fst (s.nextIndex + 1), show { s with nextIndex := _ } = s₁ from rfl, ht]
    have hafter : t.layer.afterCall (.eventCreate pool s.nextIndex) (.created event) =
        s.layer.deliver (some (.created event)) := by
      rw [hlayer]
      rfl
    have hbefore : s.layer.beforeCall (.eventCreate pool s.nextIndex) = (.ok (), s.layer) := rfl
    show s.createEvent name = _
    rw [notice?, hevent, settle, createEvent]
    simp only [hbefore]
    rw [ht]
    simp only [hafter]
    rcases s.layer.deliver (some (.created event)) with ⟨violation | ⟨⟩, layer⟩
    · rfl
    · rfl
  | destroyEvent name =>
    show s.destroyEvent name = _
    rw [notice?, settle, destroyEvent]
    cases hname : s.handles.get? name with
    | none => rfl
    | some event =>
      have hcall := call_eq_deliver { s with handles := s.handles.erase name }
        (.eventDestroy event) rfl
      simp only [hcall]
      rw [Option.map_some, Layer.notice?]
      rcases s.layer.deliver (some (.destroyed event)) with ⟨violation | ⟨⟩, layer⟩
      · rfl
      · rfl
  | resetEvent name => exact call_eq_deliver _ (.eventHostReset _) (s.layer_handleOf name)
  | append operation signal waits =>
    refine call_eq_deliver _ (.append _) ?_
    exact ((s.optionalHandle signal).2.layer_handlesOf waits).trans (s.layer_optionalHandle signal)

end Simulation

end WaitFor
