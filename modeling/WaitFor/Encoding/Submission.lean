import WaitFor.Call
import WaitFor.Encoding.Operation

/-!
# Submissions and calls as data

A submission is a record; its command list is zero, its signal absent and its waits empty where
they are not given.  A call is a variant with the tag `call`; the fields of an appended submission
stand beside the tag.
-/

namespace WaitFor

namespace EventHandle

/-- The event's handle as data. -/
def toValue (h : EventHandle) : Value := .ofWord h.bits

/-- Reads an event's handle. -/
def ofValue? (v : Value) : Option EventHandle := v.word?.map EventHandle.mk

end EventHandle

namespace Submission

/-- The fields of a submission. -/
def fields (s : Submission) : List (String × Value) :=
  [("command_list", .ofWord s.commandList.bits), ("operation", s.operation.toValue),
   ("signal", .ofOption EventHandle.toValue s.signal),
   ("waits", .list (s.waits.map EventHandle.toValue))]

/-- The submission as data. -/
def toValue (s : Submission) : Value := .object s.fields

/-- Reads the fields of a submission, whose operation has a tag of the given form. -/
def ofFields? (form : TagForm) (f : Value.Fields) : Option Submission := do
  guard (f.fits 4)
  return {
    commandList := ⟨← f.optional 0 "command_list" Value.word? 0⟩
    operation := ← f.required 1 "operation" (Operation.ofValue? form)
    signal := ← f.optional 2 "signal" (Value.option? EventHandle.ofValue?) none
    waits := ← f.optional 3 "waits" (Value.list? EventHandle.ofValue?) [] }

/-- Reads a submission whose operation has a tag of the given form. -/
def ofValue? (form : TagForm) (v : Value) : Option Submission := do ofFields? form (← v.fields?)

end Submission

namespace Call

/-- The kinds of call, in the order in which a data format may number them. -/
inductive Kind where
  | eventCreate
  | eventDestroy
  | eventHostReset
  | append
deriving DecidableEq, Repr

namespace Kind

/-- Every kind, in order. -/
def all : List Kind := [eventCreate, eventDestroy, eventHostReset, append]

/-- The kind's name as a tag. -/
def tag : Kind → String
  | eventCreate => "event_create"
  | eventDestroy => "event_destroy"
  | eventHostReset => "event_host_reset"
  | append => "append"

end Kind

/-- The call as data. -/
def toValue : Call → Value
  | eventCreate pool index =>
    .object [("call", .string Kind.eventCreate.tag), ("pool", .ofWord pool.bits),
      ("index", .ofWord32 index)]
  | eventDestroy event =>
    .object [("call", .string Kind.eventDestroy.tag), ("event", event.toValue)]
  | eventHostReset event =>
    .object [("call", .string Kind.eventHostReset.tag), ("event", event.toValue)]
  | append submission => .object (("call", .string Kind.append.tag) :: submission.fields)

/-- Reads the fields of a call of a known kind.  An appended operation stands inside a variant,
where its own tag may be a number. -/
def ofFields? (f : Value.Fields) : Kind → Option Call
  | .eventCreate => do
    guard (f.fits 2)
    return eventCreate ⟨← f.required 0 "pool" Value.word?⟩ (← f.required 1 "index" Value.word32?)
  | .eventDestroy => do
    guard (f.fits 1)
    return eventDestroy (← f.required 0 "event" EventHandle.ofValue?)
  | .eventHostReset => do
    guard (f.fits 1)
    return eventHostReset (← f.required 0 "event" EventHandle.ofValue?)
  | .append => return append (← Submission.ofFields? .nameOrNumber f)

/-- Reads a call. -/
def ofValue? (v : Value) : Option Call := do
  let (tag, f) ← v.tagged? "call"
  ofFields? f (← Value.variant? .name Kind.all Kind.tag tag)

end Call

end WaitFor
