import WaitFor.Operation

/-!
# Submissions and calls

A submission is one append call: an operation, the command list that it goes to, the event that it
signals and the events that it waits on.

A call is seen twice: before the runtime runs it, with its arguments, and after, with its outcome.
-/

namespace WaitFor

/-- An operation on its way to a command list, with the event that it signals when it is completed
and the events that must be signaled before it may start. -/
structure Submission where
  commandList : CommandListHandle := ⟨0⟩
  operation : Operation
  signal : Option EventHandle := none
  waits : List EventHandle := []
deriving DecidableEq, Repr

namespace Submission

/-- A submission that neither signals nor waits. -/
def ofOperation (commandList : CommandListHandle) (operation : Operation) : Submission where
  commandList
  operation

/-- The submission with `event` as its signal event. -/
def signaling (s : Submission) (event : EventHandle) : Submission :=
  { s with signal := some event }

/-- The submission with `events` as its wait events. -/
def waitingOn (s : Submission) (events : List EventHandle) : Submission :=
  { s with waits := events }

/-- The clause that names the signal event, empty without one. -/
def signalText (s : Submission) : String :=
  match s.signal with
  | some event => ", signals " ++ event.text
  | none => ""

/-- The clause that lists the wait events in order, empty without any. -/
def waitsText (s : Submission) : String :=
  match s.waits with
  | [] => ""
  | events => ", waits on [" ++ ", ".intercalate (events.map EventHandle.text) ++ "]"

/-- The submission as recorded for diagnostics. -/
def text (s : Submission) : String :=
  s.operation.entryPoint ++ " on " ++ s.commandList.text ++ ": " ++ s.operation.text ++
    s.signalText ++ s.waitsText

example :
    (((ofOperation ⟨0x10⟩ (.memoryCopy 0x1000 0x2000 1024)).signaling ⟨1⟩).waitingOn
      [⟨2⟩, ⟨3⟩]).text =
    "zeCommandListAppendMemoryCopy on CommandList(0x10): " ++
      "MemoryCopy(dst=0x1000, src=0x2000, size=1024)" ++
      ", signals Event(0x1), waits on [Event(0x2), Event(0x3)]" := by
  decide +kernel

end Submission

/-! ## Intercepted calls -/

/-- An intercepted call with its arguments.  The handle of a created event is not among them: it is
known only from the outcome. -/
inductive Call where
  | eventCreate (pool : EventPoolHandle) (index : UInt32)
  | eventDestroy (event : EventHandle)
  | eventHostReset (event : EventHandle)
  | append (submission : Submission)
deriving DecidableEq, Repr

/-- The name of the intercepted entry point. -/
def Call.entryPoint : Call → String
  | eventCreate .. => "zeEventCreate"
  | eventDestroy _ => "zeEventDestroy"
  | eventHostReset _ => "zeEventHostReset"
  | append submission => submission.operation.entryPoint

/-- What the runtime answered to a call: that it succeeded, with the event that it created if it was
to create one, or that it failed with a status code. -/
inductive Outcome where
  | success
  | created (event : EventHandle)
  | failed (code : Int32)
deriving DecidableEq, Repr

/-- Whether the runtime ran the call. -/
def Outcome.isSuccess : Outcome → Bool
  | failed _ => false
  | _ => true

end WaitFor
