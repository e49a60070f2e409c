import WaitFor.Operation
import WaitFor.Value

/-!
# Operations as data

An operation is a variant whose tag `kind` is the kind's name in lower-case words; its fields stand
beside the tag.
-/

namespace WaitFor

/-- The group counts as a sequence of three. -/
def GroupCount.toValue (g : GroupCount) : Value :=
  .list [.ofWord32 g.x, .ofWord32 g.y, .ofWord32 g.z]

/-- Reads exactly three group counts. -/
def GroupCount.ofValue? (v : Value) : Option GroupCount := do
  let [x, y, z] ← v.list? Value.word32? | none
  return ⟨x, y, z⟩

namespace Operation

/-- The kind's name as a tag. -/
def Kind.tag : Kind → String
  | memoryCopy => "memory_copy"
  | memoryFill => "memory_fill"
  | memoryCopyRegion => "memory_copy_region"
  | imageCopy => "image_copy"
  | launchKernel => "launch_kernel"
  | launchCooperativeKernel => "launch_cooperative_kernel"
  | barrier => "barrier"
  | memoryRangesBarrier => "memory_ranges_barrier"
  | signalEvent => "signal_event"
  | waitOnEvents => "wait_on_events"
  | writeGlobalTimestamp => "write_global_timestamp"

/-- The fields of an operation, without the tag. -/
def fields : Operation → List (String × Value)
  | memoryCopy dst src size => [("dst", .ofWord dst), ("src", .ofWord src), ("size", .ofWord size)]
  | memoryFill ptr patternSize size =>
    [("ptr", .ofWord ptr), ("pattern_size", .ofWord patternSize), ("size", .ofWord size)]
  | memoryCopyRegion dst src => [("dst", .ofWord dst), ("src", .ofWord src)]
  | imageCopy dst src => [("dst", .ofWord dst), ("src", .ofWord src)]
  | launchKernel kernel groups =>
    [("kernel", .string kernel), ("group_count", GroupCount.toValue groups)]
  | launchCooperativeKernel kernel groups =>
    [("kernel", .string kernel), ("group_count", GroupCount.toValue groups)]
  | barrier => []
  | memoryRangesBarrier ranges => [("ranges", .ofWord32 ranges)]
  | signalEvent => []
  | waitOnEvents => []
  | writeGlobalTimestamp dst => [("dst", .ofWord dst)]

/-- The operation as data. -/
def toValue (op : Operation) : Value := .object (("kind", .string op.kind.tag) :: op.fields)

/-- The number of fields of each kind. -/
def Kind.arity : Kind → Nat
  | memoryCopy | memoryFill => 3
  | memoryCopyRegion | imageCopy | launchKernel | launchCooperativeKernel => 2
  | memoryRangesBarrier | writeGlobalTimestamp => 1
  | barrier | signalEvent | waitOnEvents => 0

/-- Reads the fields of an operation of a known kind. -/
def ofFields? (f : Value.Fields) : Kind → Option Operation
  | .memoryCopy => do
    return memoryCopy (← f.required 0 "dst" Value.word?) (← f.required 1 "src" Value.word?)
      (← f.required 2 "size" Value.word?)
  | .memoryFill => do
    return memoryFill (← f.required 0 "ptr" Value.word?) (← f.required 1 "pattern_size" Value.word?)
      (← f.required 2 "size" Value.word?)
  | .memoryCopyRegion => do
    return memoryCopyRegion (← f.required 0 "dst" Value.word?) (← f.required 1 "src" Value.word?)
  | .imageCopy => do
    return imageCopy (← f.required 0 "dst" Value.word?) (← f.required 1 "src" Value.word?)
  | .launchKernel => do
    return launchKernel (← f.required 0 "kernel" Value.string?)
      (← f.required 1 "group_count" GroupCount.ofValue?)
  | .launchCooperativeKernel => do
    return launchCooperativeKernel (← f.required 0 "kernel" Value.string?)
      (← f.required 1 "group_count" GroupCount.ofValue?)
  | .barrier => some barrier
  | .memoryRangesBarrier => do
    return memoryRangesBarrier (← f.required 0 "ranges" Value.word32?)
  | .signalEvent => some signalEvent
  | .waitOnEvents => some waitOnEvents
  | .writeGlobalTimestamp => do
    return writeGlobalTimestamp (← f.required 0 "dst" Value.word?)

/-- Reads an operation whose tag has the given form. -/
def ofValue? (form : TagForm) (v : Value) : Option Operation := do
  let (tag, f) ← v.tagged? "kind"
  let kind ← Value.variant? form Kind.all Kind.tag tag
  guard (f.fits kind.arity)
  ofFields? f kind

end Operation

end WaitFor
