import WaitFor.Encoding.Operation
import WaitFor.Scenario

/-!
# Scenarios as data

A scenario is a record; its description is empty where it is not given.  A step is a variant with
the tag `step`; an appended operation stands inside it with a tag of its own.
-/

namespace WaitFor

namespace Step

/-- The kinds of step, in the order in which a data format may number them. -/
inductive Kind where
  | createEvent
  | destroyEvent
  | resetEvent
  | append
deriving DecidableEq, Repr

namespace Kind

/-- Every kind, in order. -/
def all : List Kind := [createEvent, destroyEvent, resetEvent, append]

/-- The kind's name as a tag. -/
def tag : Kind → String
  | createEvent => "create_event"
  | destroyEvent => "destroy_event"
  | resetEvent => "reset_event"
  | append => "append"

end Kind

/-- The step as data. -/
def toValue : Step → Value
  | createEvent name => .object [("step", .string Kind.createEvent.tag), ("name", .string name)]
  | destroyEvent name => .object [("step", .string Kind.destroyEvent.tag), ("name", .string name)]
  | resetEvent name => .object [("step", .string Kind.resetEvent.tag), ("name", .string name)]
  | append operation signal waits =>
    .object [("step", .string Kind.append.tag), ("operation", operation.toValue),
      ("signal", .ofOption .string signal), ("waits", .list (waits.map .string))]

/-- Reads the fields of a step of a known kind, whose operation has a tag of the given form. -/
def ofFields? (form : TagForm) (f : Value.Fields) : Kind → Option Step
  | .createEvent => do
    guard (f.fits 1)
    return createEvent (← f.required 0 "name" Value.string?)
  | .destroyEvent => do
    guard (f.fits 1)
    return destroyEvent (← f.required 0 "name" Value.string?)
  | .resetEvent => do
    guard (f.fits 1)
    return resetEvent (← f.required 0 "name" Value.string?)
  | .append => do
    guard (f.fits 3)
    return append (← f.required 0 "operation" (Operation.ofValue? form))
      (← f.optional 1 "signal" (Value.option? Value.string?) none)
      (← f.optional 2 "waits" (Value.list? Value.string?) [])

/-- Reads a step whose operation has a tag of the given form. -/
def ofValue? (form : TagForm) (v : Value) : Option Step := do
  let (tag, f) ← v.tagged? "step"
  ofFields? form f (← Value.variant? .name Kind.all Kind.tag tag)

end Step

namespace Scenario

/-- The scenario as data. -/
def toValue (s : Scenario) : Value :=
  .object [("name", .string s.name), ("description", .string s.description),
    ("steps", .list (s.steps.map Step.toValue))]

/-- Reads a scenario whose operations have tags of the given form. -/
def ofValue? (form : TagForm) (v : Value) : Option Scenario := do
  let f ← v.fields?
  guard (f.fits 3)
  return {
    name := ← f.required 0 "name" Value.string?
    description := ← f.optional 1 "description" Value.string? ""
    steps := ← f.required 2 "steps" (Value.list? (Step.ofValue? form)) }

end Scenario

end WaitFor
