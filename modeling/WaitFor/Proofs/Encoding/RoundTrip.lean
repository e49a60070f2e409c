import Mathlib.Logic.Function.Basic
import WaitFor.Encoding.Scenario
import WaitFor.Encoding.Submission

/-!
# Reading undoes writing

Operations, submissions, calls, steps and scenarios are read back from the data that they are
written as, `reading_undoes_writing`.  The format nests: a call may hold a submission, whose fields
then stand beside the call's tag, and a submission and a step hold an operation, which has a tag of
its own inside.  So the proof goes from the inside out, with one lemma for each reader and one for
each part of a value that readers share.

What is written has every field of the record by name, none left out: a signal event that is absent
is written as `null`, and no waits as an empty sequence.  The defaults of the readers are for data
from elsewhere.
-/

namespace WaitFor

/-- Every value is read back from what `write` makes of it.  So different values are written
differently, and data that was read and written again does not change when that is done once more.
-/
structure Undoes {α : Type} (read : Value → Option α) (write : α → Value) : Prop where
  read_write : ∀ a, read (write a) = some a
  injective : Function.Injective write
  rewritten : ∀ v a, read v = some a → (read (write a)).map write = some (write a)

/-- All of it follows from reading back what is written. -/
theorem Undoes.of_read_write {α : Type} {read : Value → Option α} {write : α → Value}
    (h : ∀ a, read (write a) = some a) : Undoes read write where
  read_write := h
  injective a b hab := Option.some.inj (by rw [← h a, hab, h b])
  rewritten v a _ := by rw [h, Option.map_some]

namespace Value

/-- The value is a record with these fields, which have the given names in order. -/
def IsRecord (v : Value) (fields : List (String × Value)) (names : List String) : Prop :=
  v = .object fields ∧ fields.map Prod.fst = names

variable {α : Type} {read : Value → Option α} {write : α → Value}

/-! ## Parts of a value -/

/-- A sequence is read back if its elements are. -/
theorem list?_map (h : ∀ a, read (write a) = some a) (as : List α) :
    (list (as.map write)).list? read = some as := by
  rw [list?]
  induction as with
  | nil => rfl
  | cons a as ih => rw [List.map_cons, List.mapM_cons, h, ih]; rfl

/-- Nothing is told from what is written, which is never `null`. -/
theorem option?_ofOption (h : ∀ a, read (write a) = some a) (hnull : ∀ a, write a ≠ .null)
    (o : Option α) : (ofOption write o).option? read = some o := by
  cases o with
  | none => rfl
  | some a =>
    have hread : (write a).option? read = (read (write a)).map some := by
      cases hw : write a with
      | null => exact absurd hw (hnull a)
      | _ => rfl
    rw [ofOption, hread, h, Option.map_some]

/-- Only nothing is written as null. -/
theorem ofOption_eq_null_iff (hnull : ∀ a, write a ≠ .null) {o : Option α} :
    ofOption write o = .null ↔ o = none := by
  cases o with
  | none => simp [ofOption]
  | some a => simp [ofOption, hnull a]

/-- A tag is read by the name of its variant, where no two variants share a name. -/
theorem variant?_string {all : List α} (name : α → String) (hnames : (all.map name).Nodup)
    {a : α} (ha : a ∈ all) (form : TagForm) :
    variant? form all name (.string (name a)) = some a := by
  rw [variant?]
  induction all with
  | nil => cases ha
  | cons b all ih =>
    rw [List.map_cons, List.nodup_cons] at hnames
    rcases List.mem_cons.1 ha with rfl | ha
    · rw [List.find?_cons_of_pos (by simp)]
    · have hab : name b ≠ name a := fun h => hnames.1 (h ▸ List.mem_map_of_mem ha)
      rw [List.find?_cons_of_neg (by simpa using hab), ih hnames.2 ha]

/-- A record with its tag in front. -/
theorem tagged?_object (key : String) (tag : Value) (fields : List (String × Value)) :
    (object ((key, tag) :: fields)).tagged? key = some (tag, .named ((key, tag) :: fields)) := by
  rw [tagged?, List.lookup_cons_self, Option.map_some]

/-! ## Fields with names -/

namespace Fields

variable {fields : List (String × Value)} {position : Nat} {name other : String} {v : Value}
  {default : α}

theorem required_self (read : Value → Option α) :
    (named ((name, v) :: fields)).required position name read = read v := by
  rw [required, get?, List.lookup_cons_self, Option.bind_some]

theorem required_of_ne (h : other ≠ name) (read : Value → Option α) :
    (named ((name, v) :: fields)).required position other read =
      (named fields).required position other read := by
  rw [required, required, get?, get?, List.lookup_cons, beq_false_of_ne h]

theorem optional_self (read : Value → Option α) :
    (named ((name, v) :: fields)).optional position name read default = read v := by
  rw [optional, get?, List.lookup_cons_self]

theorem optional_of_ne (h : other ≠ name) (read : Value → Option α) :
    (named ((name, v) :: fields)).optional position other read default =
      (named fields).optional position other read default := by
  rw [optional, optional, get?, get?, List.lookup_cons, beq_false_of_ne h]

end Fields

end Value

open Value.Fields (required_self required_of_ne optional_self optional_of_ne)

/-! ## One lemma for each reader -/

/-- Group counts are read back. -/
theorem GroupCount.ofValue?_toValue (g : GroupCount) : ofValue? g.toValue = some g := by
  simp [toValue, ofValue?, Value.list?]

/-- Handles of events are read back. -/
theorem EventHandle.ofValue?_toValue (h : EventHandle) : ofValue? h.toValue = some h := by
  simp [toValue, ofValue?]

namespace Operation

/-- An operation is read back from its own fields, whatever its tag is. -/
theorem ofFields?_fields (op : Operation) (tag : Value) :
    ofFields? (.named (("kind", tag) :: op.fields)) op.kind = some op := by
  cases op <;> simp [ofFields?, fields, kind, required_self, required_of_ne, Value.string?,
    GroupCount.ofValue?_toValue]

/-- Operations are read back. -/
theorem ofValue?_toValue (form : TagForm) (op : Operation) :
    ofValue? form op.toValue = some op := by
  have htag := Value.variant?_string Kind.tag (by decide) (Kind.mem_all op.kind) form
  rw [ofValue?, toValue, Value.tagged?_object]
  exact (congrArg (Option.bind · _) htag).trans (ofFields?_fields op _)

/-- The names of the fields of each kind, in order. -/
def Kind.fieldNames : Kind → List String
  | memoryCopy => ["dst", "src", "size"]
  | memoryFill => ["ptr", "pattern_size", "size"]
  | memoryCopyRegion | imageCopy => ["dst", "src"]
  | launchKernel | launchCooperativeKernel => ["kernel", "group_count"]
  | memoryRangesBarrier => ["ranges"]
  | writeGlobalTimestamp => ["dst"]
  | barrier | signalEvent | waitOnEvents => []

/-- An operation is written with the fields that its kind declares. -/
theorem map_fst_fields (op : Operation) : op.fields.map Prod.fst = op.kind.fieldNames := by
  cases op <;> rfl

end Operation

namespace Submission

/-- A submission is read back from its own fields. -/
theorem ofFields?_fields (form : TagForm) (s : Submission) :
    ofFields? form (.named s.fields) = some s := by
  -- Every read is settled as a fact of its own, before the record is put together: `simp` on the
  -- whole reader would have the kernel evaluate the bounds of words.
  have hlist : (Value.Fields.named s.fields).optional 0 "command_list" Value.word? 0 =
      some s.commandList.bits := by
    rw [fields, optional_self, Value.word?_ofWord]
  have hoperation : (Value.Fields.named s.fields).required 1 "operation"
      (Operation.ofValue? form) = some s.operation := by
    rw [fields, required_of_ne (by decide), required_self, Operation.ofValue?_toValue]
  have hsignal : (Value.Fields.named s.fields).optional 2 "signal"
      (Value.option? EventHandle.ofValue?) none = some s.signal := by
    rw [fields, optional_of_ne (by decide), optional_of_ne (by decide), optional_self,
      Value.option?_ofOption EventHandle.ofValue?_toValue nofun]
  have hwaits : (Value.Fields.named s.fields).optional 3 "waits"
      (Value.list? EventHandle.ofValue?) [] = some s.waits := by
    rw [fields, optional_of_ne (by decide), optional_of_ne (by decide), optional_of_ne (by decide),
      optional_self, Value.list?_map EventHandle.ofValue?_toValue]
  rw [ofFields?, hlist, hoperation, hsignal, hwaits]
  rfl

/-- A field with a name of its own may stand before the fields of a submission. -/
theorem ofFields?_tagged (form : TagForm) (tag : Value) (fields : List (String × Value)) :
    ofFields? form (.named (("call", tag) :: fields)) = ofFields? form (.named fields) := by
  rw [ofFields?, ofFields?, required_of_ne (by decide), optional_of_ne (by decide),
    optional_of_ne (by decide), optional_of_ne (by decide)]
  rfl

/-- Submissions are read back. -/
theorem ofValue?_toValue (form : TagForm) (s : Submission) :
    ofValue? form s.toValue = some s := by
  rw [ofValue?, toValue, Value.fields?, Option.bind_eq_bind, Option.bind_some, ofFields?_fields]

/-- The names of the fields of a submission, in order. -/
def fieldNames : List String := ["command_list", "operation", "signal", "waits"]

/-- The signal of a submission is written as null exactly if there is none. -/
theorem lookup_signal_fields (s : Submission) :
    s.fields.lookup "signal" = some .null ↔ s.signal = none := by
  have h : s.fields.lookup "signal" = some (.ofOption EventHandle.toValue s.signal) := rfl
  rw [h, Option.some_inj, Value.ofOption_eq_null_iff nofun]

end Submission

namespace Call

/-- The list of all kinds of calls leaves none out. -/
theorem Kind.mem_all (k : Kind) : k ∈ all := by
  cases k <;> decide

/-- The kind of a call. -/
def kind : Call → Kind
  | eventCreate .. => .eventCreate
  | eventDestroy _ => .eventDestroy
  | eventHostReset _ => .eventHostReset
  | append _ => .append

/-- The fields of a call, without the tag. -/
def fields : Call → List (String × Value)
  | eventCreate pool index => [("pool", .ofWord pool.bits), ("index", .ofWord32 index)]
  | eventDestroy event => [("event", event.toValue)]
  | eventHostReset event => [("event", event.toValue)]
  | append submission => submission.fields

/-- A call is written as its tag and its fields. -/
theorem toValue_eq (c : Call) :
    c.toValue = .object (("call", .string c.kind.tag) :: c.fields) := by
  cases c <;> rfl

/-- A call is read back from its own fields, whatever its tag is. -/
theorem ofFields?_fields (c : Call) (tag : Value) :
    ofFields? (.named (("call", tag) :: c.fields)) c.kind = some c := by
  cases c with
  | eventCreate pool index =>
    have hpool : (Value.Fields.named (("call", tag) :: (eventCreate pool index).fields)).required 0
        "pool" Value.word? = some pool.bits := by
      rw [fields, required_of_ne (by decide), required_self, Value.word?_ofWord]
    have hindex : (Value.Fields.named (("call", tag) :: (eventCreate pool index).fields)).required 1
        "index" Value.word32? = some index := by
      rw [fields, required_of_ne (by decide), required_of_ne (by decide), required_self,
        Value.word32?_ofWord32]
    rw [kind, ofFields?, hpool, hindex]
    rfl
  | eventDestroy event =>
    rw [kind, fields, ofFields?, required_of_ne (by decide), required_self,
      EventHandle.ofValue?_toValue]
    rfl
  | eventHostReset event =>
    rw [kind, fields, ofFields?, required_of_ne (by decide), required_self,
      EventHandle.ofValue?_toValue]
    rfl
  | append submission =>
    rw [kind, fields, ofFields?, Submission.ofFields?_tagged, Submission.ofFields?_fields]
    rfl

/-- Calls are read back. -/
theorem ofValue?_toValue (c : Call) : ofValue? c.toValue = some c := by
  have htag := Value.variant?_string Kind.tag (by decide) (Kind.mem_all c.kind) .name
  rw [toValue_eq, ofValue?, Value.tagged?_object]
  simp only [Option.bind_eq_bind, Option.bind_some, htag, ofFields?_fields]

/-- The names of the fields of each kind, in order. -/
def Kind.fieldNames : Kind → List String
  | eventCreate => ["pool", "index"]
  | eventDestroy | eventHostReset => ["event"]
  | append => Submission.fieldNames

/-- A call is written with the fields that its kind declares. -/
theorem map_fst_fields (c : Call) : c.fields.map Prod.fst = c.kind.fieldNames := by
  cases c <;> rfl

end Call

namespace Step

/-- The list of all kinds of steps leaves none out. -/
theorem Kind.mem_all (k : Kind) : k ∈ all := by
  cases k <;> decide

/-- The kind of a step. -/
def kind : Step → Kind
  | createEvent _ => .createEvent
  | destroyEvent _ => .destroyEvent
  | resetEvent _ => .resetEvent
  | append .. => .append

/-- The fields of a step, without the tag. -/
def fields : Step → List (String × Value)
  | createEvent name => [("name", .string name)]
  | destroyEvent name => [("name", .string name)]
  | resetEvent name => [("name", .string name)]
  | append operation signal waits =>
    [("operation", operation.toValue), ("signal", .ofOption .string signal),
      ("waits", .list (waits.map .string))]

/-- A step is written as its tag and its fields. -/
theorem toValue_eq (s : Step) : s.toValue = .object (("step", .string s.kind.tag) :: s.fields) := by
  cases s <;> rfl

/-- A step is read back from its own fields, whatever its tag is. -/
theorem ofFields?_fields (form : TagForm) (s : Step) (tag : Value) :
    ofFields? form (.named (("step", tag) :: s.fields)) s.kind = some s := by
  have hstring : ∀ text : String, (Value.string text).string? = some text := fun _ => rfl
  cases s with
  | append operation signal waits =>
    rw [kind, fields, ofFields?, required_of_ne (by decide), required_self,
      Operation.ofValue?_toValue, optional_of_ne (by decide), optional_of_ne (by decide),
      optional_self, Value.option?_ofOption hstring nofun, optional_of_ne (by decide),
      optional_of_ne (by decide), optional_of_ne (by decide), optional_self,
      Value.list?_map hstring]
    rfl
  | _ =>
    rw [kind, fields, ofFields?, required_of_ne (by decide), required_self]
    rfl

/-- Steps are read back. -/
theorem ofValue?_toValue (form : TagForm) (s : Step) : ofValue? form s.toValue = some s := by
  have htag := Value.variant?_string Kind.tag (by decide) (Kind.mem_all s.kind) .name
  rw [toValue_eq, ofValue?, Value.tagged?_object]
  simp only [Option.bind_eq_bind, Option.bind_some, htag, ofFields?_fields]

/-- The names of the fields of each kind, in order. -/
def Kind.fieldNames : Kind → List String
  | createEvent | destroyEvent | resetEvent => ["name"]
  | append => ["operation", "signal", "waits"]

/-- A step is written with the fields that its kind declares. -/
theorem map_fst_fields (s : Step) : s.fields.map Prod.fst = s.kind.fieldNames := by
  cases s <;> rfl

/-- The signal of an append is written as null exactly if there is none. -/
theorem lookup_signal_fields (operation : Operation) (signal : Option String)
    (waits : List String) :
    (append operation signal waits).fields.lookup "signal" = some .null ↔ signal = none := by
  have h : (append operation signal waits).fields.lookup "signal" =
      some (.ofOption .string signal) := rfl
  rw [h, Option.some_inj, Value.ofOption_eq_null_iff nofun]

end Step

namespace Scenario

/-- The fields of a scenario. -/
def fields (s : Scenario) : List (String × Value) :=
  [("name", .string s.name), ("description", .string s.description),
    ("steps", .list (s.steps.map Step.toValue))]

/-- The names of the fields of a scenario, in order. -/
def fieldNames : List String := ["name", "description", "steps"]

/-- Scenarios are read back. -/
theorem ofValue?_toValue (form : TagForm) (s : Scenario) : ofValue? form s.toValue = some s := by
  rw [ofValue?, toValue, Value.fields?, Option.bind_eq_bind, Option.bind_some, required_self,
    optional_of_ne (by decide), optional_self, required_of_ne (by decide),
    required_of_ne (by decide), required_self, Value.list?_map (Step.ofValue?_toValue form)]
  rfl

end Scenario

/-! ## The whole format -/

/-- Reading undoes writing for every kind of data of the library, whichever form the tag of an
operation may have.  What is written has its tag in front, if it is a variant, and then every
field; an appended submission has its fields beside the tag of the call, and a signal event is
written as `null` exactly where it is absent. -/
theorem reading_undoes_writing (form : TagForm) :
    (Undoes (Operation.ofValue? form) Operation.toValue ∧
      ∀ op : Operation, op.toValue.IsRecord (("kind", .string op.kind.tag) :: op.fields)
        ("kind" :: op.kind.fieldNames)) ∧
    (Undoes (Submission.ofValue? form) Submission.toValue ∧
      ∀ s : Submission, s.toValue.IsRecord s.fields Submission.fieldNames ∧
        (s.fields.lookup "signal" = some .null ↔ s.signal = none)) ∧
    (Undoes Call.ofValue? Call.toValue ∧
      (∀ c : Call, c.toValue.IsRecord (("call", .string c.kind.tag) :: c.fields)
        ("call" :: c.kind.fieldNames)) ∧
      ∀ s : Submission, (Call.append s).fields = s.fields) ∧
    (Undoes (Step.ofValue? form) Step.toValue ∧
      (∀ s : Step, s.toValue.IsRecord (("step", .string s.kind.tag) :: s.fields)
        ("step" :: s.kind.fieldNames)) ∧
      ∀ operation signal waits, (Step.append operation signal waits).fields.lookup "signal" =
        some .null ↔ signal = none) ∧
    (Undoes (Scenario.ofValue? form) Scenario.toValue ∧
      ∀ s : Scenario, s.toValue.IsRecord s.fields Scenario.fieldNames) := by
  refine ⟨⟨?operation, fun op => ⟨rfl, congrArg _ op.map_fst_fields⟩⟩,
    ⟨?submission, fun s => ⟨⟨rfl, rfl⟩, s.lookup_signal_fields⟩⟩,
    ⟨?call, fun c => ⟨c.toValue_eq, congrArg _ c.map_fst_fields⟩, fun _ => rfl⟩,
    ⟨?step, fun s => ⟨s.toValue_eq, congrArg _ s.map_fst_fields⟩, Step.lookup_signal_fields⟩,
    ⟨?scenario, fun _ => ⟨rfl, rfl⟩⟩⟩
  case operation => exact .of_read_write (Operation.ofValue?_toValue form)
  case submission => exact .of_read_write (Submission.ofValue?_toValue form)
  case call => exact .of_read_write Call.ofValue?_toValue
  case step => exact .of_read_write (Step.ofValue?_toValue form)
  case scenario => exact .of_read_write (Scenario.ofValue?_toValue form)

example : (Call.append { operation := .barrier, waits := [⟨7⟩] }).toValue =
    .object [("call", .string "append"), ("command_list", .integer 0),
      ("operation", .object [("kind", .string "barrier")]), ("signal", .null),
      ("waits", .list [.integer 7])] := rfl

end WaitFor
