import WaitFor.Handle

/-!
# Operations

An operation is what a command list is asked to do.  Its fields are kept to describe it in
diagnostics only; no rule of the library looks at them.  What depends on the kind alone (the names)
is a function of `Operation.Kind`.
-/

namespace WaitFor

/-- An operation appended to a command list, which may signal an event and wait on others: copies
and fills of memory, launches of kernels, whose groups may wait for each other if they are
cooperative, barriers to all later operations or on memory ranges, the signal of an event or the
wait on events from the device, and the write of a global timestamp. -/
inductive Operation.Kind where
  | memoryCopy
  | memoryFill
  | memoryCopyRegion
  | imageCopy
  | launchKernel
  | launchCooperativeKernel
  | barrier
  | memoryRangesBarrier
  | signalEvent
  | waitOnEvents
  | writeGlobalTimestamp
deriving DecidableEq, Repr

/-- How many groups a kernel is launched with in each of the three dimensions. -/
structure GroupCount where
  x : UInt32
  y : UInt32
  z : UInt32
deriving DecidableEq, Repr

/-- An operation appended to a command list, which may signal an event and wait on others. -/
inductive Operation where
  | memoryCopy (dst src size : UInt64)
  | memoryFill (ptr patternSize size : UInt64)
  | memoryCopyRegion (dst src : UInt64)
  | imageCopy (dst src : UInt64)
  | launchKernel (kernel : String) (groups : GroupCount)
  | launchCooperativeKernel (kernel : String) (groups : GroupCount)
  | barrier
  | memoryRangesBarrier (ranges : UInt32)
  | signalEvent
  | waitOnEvents
  | writeGlobalTimestamp (dst : UInt64)
deriving DecidableEq, Repr

namespace Operation

namespace Kind

/-- Every kind, in order. -/
def all : List Kind :=
  [memoryCopy, memoryFill, memoryCopyRegion, imageCopy, launchKernel, launchCooperativeKernel,
   barrier, memoryRangesBarrier, signalEvent, waitOnEvents, writeGlobalTimestamp]

/-- The kind's name in diagnostics and in the names of entry points. -/
def label : Kind → String
  | memoryCopy => "MemoryCopy"
  | memoryFill => "MemoryFill"
  | memoryCopyRegion => "MemoryCopyRegion"
  | imageCopy => "ImageCopy"
  | launchKernel => "LaunchKernel"
  | launchCooperativeKernel => "LaunchCooperativeKernel"
  | barrier => "Barrier"
  | memoryRangesBarrier => "MemoryRangesBarrier"
  | signalEvent => "SignalEvent"
  | waitOnEvents => "WaitOnEvents"
  | writeGlobalTimestamp => "WriteGlobalTimestamp"

/-- The list of all kinds leaves none out. -/
theorem mem_all (k : Kind) : k ∈ all := by
  cases k <;> decide

end Kind

/-- The kind of an operation. -/
def kind : Operation → Kind
  | memoryCopy .. => .memoryCopy
  | memoryFill .. => .memoryFill
  | memoryCopyRegion .. => .memoryCopyRegion
  | imageCopy .. => .imageCopy
  | launchKernel .. => .launchKernel
  | launchCooperativeKernel .. => .launchCooperativeKernel
  | barrier => .barrier
  | memoryRangesBarrier .. => .memoryRangesBarrier
  | signalEvent => .signalEvent
  | waitOnEvents => .waitOnEvents
  | writeGlobalTimestamp .. => .writeGlobalTimestamp

/-- The name of the entry point that appends the operation. -/
def entryPoint (op : Operation) : String := "zeCommandListAppend" ++ op.kind.label

/-- An address field `name=0x…`. -/
def addressText (name : String) (value : UInt64) : String := name ++ "=" ++ Text.hex value.toNat

/-- A number field `name=…`. -/
def numberText (name : String) (value : Nat) : String := name ++ "=" ++ Text.decimal value

/-- A launch's kernel and groups, as in `saxpy, groups=64x1x1`. -/
def launchText (kernel : String) (groups : GroupCount) : String :=
  kernel ++ ", groups=" ++ Text.decimal groups.x.toNat ++ "x" ++ Text.decimal groups.y.toNat ++
    "x" ++ Text.decimal groups.z.toNat

/-- The fields of an operation as shown in diagnostics, without the parentheses around them; none
for a kind without fields. -/
def fieldsText : Operation → Option String
  | memoryCopy dst src size =>
    some (addressText "dst" dst ++ ", " ++ addressText "src" src ++ ", " ++
      numberText "size" size.toNat)
  | memoryFill ptr patternSize size =>
    some (addressText "ptr" ptr ++ ", " ++ numberText "pattern_size" patternSize.toNat ++ ", " ++
      numberText "size" size.toNat)
  | memoryCopyRegion dst src => some (addressText "dst" dst ++ ", " ++ addressText "src" src)
  | imageCopy dst src => some (addressText "dst" dst ++ ", " ++ addressText "src" src)
  | launchKernel kernel groups => some (launchText kernel groups)
  | launchCooperativeKernel kernel groups => some (launchText kernel groups)
  | barrier => none
  | memoryRangesBarrier ranges => some (numberText "ranges" ranges.toNat)
  | signalEvent => none
  | waitOnEvents => none
  | writeGlobalTimestamp dst => some (addressText "dst" dst)

/-- The operation as shown in diagnostics: its label, then its fields in parentheses. -/
def text (op : Operation) : String :=
  op.kind.label ++ match op.fieldsText with
    | some fields => "(" ++ fields ++ ")"
    | none => ""

example :
    (memoryCopy 0x1000 0x2000 1024).text = "MemoryCopy(dst=0x1000, src=0x2000, size=1024)" := by
  decide

end Operation

end WaitFor
