import WaitFor.Call
import WaitFor.Layer.Settings

/-!
# The validation layer

The layer hosts observers and turns every intercepted call into notices.  An event's creation is a
notice after the call, since only then the handle is known; the other calls are notices before it.
The observers are notified in the order of their registration, up to the first that objects.

Besides the deadlock monitor of its settings, a layer hosts guests of a type `κ`.  Everything its
observers report is kept in order.
-/

namespace WaitFor

/-- An observer that a layer can host: a deadlock monitor, or a guest of another kind. -/
inductive Hosted (κ : Type) where
  | deadlock (monitor : Monitor)
  | guest (guest : κ)
deriving DecidableEq

namespace Hosted

variable {κ : Type} [Observer κ]

/-- The deadlock monitor, if the observer is one. -/
def monitor? : Hosted κ → Option Monitor
  | deadlock monitor => some monitor
  | guest _ => none

instance : Observer (Hosted κ) where
  name
    | deadlock monitor => Observer.name monitor
    | guest g => Observer.name g
  notify
    | deadlock monitor, notice =>
      let r := Observer.notify monitor notice
      { r with state := deadlock r.state }
    | guest g, notice =>
      let r := Observer.notify g notice
      { r with state := guest r.state }

end Hosted

/-- A registered observer in its current state, with the name that it is registered under and an id
that no other slot of the layer ever had. -/
structure Slot (κ : Type) where
  id : Nat
  name : String
  observer : Hosted κ
deriving DecidableEq

/-- The deadlock monitor that a layer was set up with, as the layer knows it besides the slot with
the id `slot`.  It is the same monitor as the one in that slot, so both change together. -/
structure OwnMonitor where
  slot : Nat
  monitor : Monitor
deriving DecidableEq

/-- The monitor after notices that have left the observers as they are in `slots`. -/
def OwnMonitor.follow {κ : Type} (own : OwnMonitor) (slots : List (Slot κ)) : OwnMonitor :=
  match (slots.find? fun slot => slot.id = own.slot).bind fun slot => slot.observer.monitor? with
  | some monitor => { own with monitor }
  | none => own

/-- A list of observers with distinct names, in the order of their registration.  Beside them the
layer keeps its own deadlock monitor, which does not go by itself when its slot goes; the id of the
next slot; and the violations reported so far, in order. -/
structure Layer (κ : Type) where
  slots : List (Slot κ) := []
  nextId : Nat := 0
  own : Option OwnMonitor := none
  reported : List Violation := []
deriving DecidableEq

namespace Layer

variable {κ : Type} [Observer κ]

/-- The layer without observers. -/
def empty : Layer κ where

/-! ## Registration -/

/-- The names of the registered observers in the order of their registration. -/
def names (l : Layer κ) : List String := l.slots.map Slot.name

/-- Whether an observer is registered under `name`. -/
def isActive (l : Layer κ) (name : String) : Bool := l.names.contains name

/-- Registers an observer last, unless its name is taken.  Whether it was registered comes first. -/
def register (l : Layer κ) (observer : Hosted κ) : Bool × Layer κ :=
  let name := Observer.name observer
  if l.isActive name then (false, l)
  else
    let slot := { id := l.nextId, name, observer }
    (true, { l with slots := l.slots ++ [slot], nextId := l.nextId + 1 })

/-- Removes the observer registered under `name`.  Whether there was one comes first. -/
def deregister (l : Layer κ) (name : String) : Bool × Layer κ :=
  let slots := l.slots.filter fun slot => slot.name ≠ name
  let own := if name = Monitor.registeredName then none else l.own
  (l.isActive name, { l with slots, own })

/-- Removes every observer. -/
def shutdown (l : Layer κ) : Layer κ :=
  l.names.foldl (fun l name => (l.deregister name).2) l

/-- The layer that hosts a deadlock monitor of its own. -/
def hosting (monitor : Monitor) : Layer κ :=
  { (empty.register (.deadlock monitor)).2 with own := some ⟨0, monitor⟩ }

/-- The layer that settings ask for. -/
def fresh (settings : LayerSettings) : Layer κ :=
  if settings.enabled then hosting (.fresh settings.monitor) else empty

/-- The layer that settings ask for; `none` if there cannot be room for its monitor. -/
def ofSettings? (settings : LayerSettings) : Option (Layer κ) :=
  if settings.enabled then (Monitor.ofSettings? settings.monitor).map hosting else some empty

/-- A layer comes out as its settings ask for, unless they ask for a monitor that there cannot be
room for. -/
theorem ofSettings?_eq (settings : LayerSettings) :
    (ofSettings? settings : Option (Layer κ)) =
      if settings.enabled = true → settings.monitor.nodeCapacity ≤ Graph.maxRoom then
        some (fresh settings)
      else none := by
  rw [ofSettings?, fresh, Monitor.ofSettings?_eq]
  cases settings.enabled with
  | false => simp
  | true =>
    by_cases hroom : settings.monitor.nodeCapacity ≤ Graph.maxRoom
    · simp [hroom]
    · simp [hroom]

/-- The deadlock monitor that the layer was set up with, unless the layer has dropped it. -/
def ownMonitor? (l : Layer κ) : Option Monitor := l.own.map OwnMonitor.monitor

/-! ## Calls -/

/-- What observers are told before the runtime executes a call. -/
def noticeBefore? : Call → Option Notice
  | .eventCreate .. => none
  | .eventDestroy event => some (.destroyed event)
  | .eventHostReset event => some (.hostReset event)
  | .append submission => some (.submitted submission)

/-- What observers are told after the runtime executed a call. -/
def noticeAfter? : Call → Outcome → Option Notice
  | .eventCreate .., .created event => some (.created event)
  | _, _ => none

/-- Notifies observers in order, up to the first that objects. -/
def notifySlots (notice : Notice) : List (Slot κ) → Reply (List (Slot κ))
  | [] => { state := [], verdict := .ok () }
  | slot :: slots =>
    let r := Observer.notify slot.observer notice
    let slot := { slot with observer := r.state }
    match r.verdict with
    | .error violation =>
      { state := slot :: slots, verdict := .error violation, reported := r.reported }
    | .ok () =>
      let rest := notifySlots notice slots
      { rest with state := slot :: rest.state, reported := r.reported ++ rest.reported }

/-- The layer after notices that have left the observers as they are in `slots` and to which they
have reported `reports`. -/
def advance (l : Layer κ) (slots : List (Slot κ)) (reports : List Violation) : Layer κ :=
  { l with slots, own := l.own.map fun own => own.follow slots, reported := l.reported ++ reports }

/-- Notifies the observers of the layer, if there is something to tell. -/
def deliver (l : Layer κ) : Option Notice → Verdict × Layer κ
  | none => (.ok (), l)
  | some notice =>
    let r := notifySlots notice l.slots
    (r.verdict, l.advance r.state r.reported)

/-- What the layer does before the runtime executes a call. -/
def beforeCall (l : Layer κ) (call : Call) : Verdict × Layer κ := l.deliver (noticeBefore? call)

/-- What the layer does after the runtime executed a call. -/
def afterCall (l : Layer κ) (call : Call) (outcome : Outcome) : Verdict × Layer κ :=
  l.deliver (noticeAfter? call outcome)

/-- A call with the given outcome: what the layer does before it and, unless that refuses the call,
after it. -/
def call (l : Layer κ) (call : Call) (outcome : Outcome) : Verdict × Layer κ :=
  match l.beforeCall call with
  | (.ok (), l) => l.afterCall call outcome
  | refused => refused

end Layer

end WaitFor
