import Mathlib.Data.List.Find
import WaitFor.Observer
import WaitFor.Proofs.Chains
import WaitFor.Scenario

/-!
# A chronicle of generations

The reference for the deadlock monitor.  It numbers the generations of events as they start and
keeps which generation waits for which, with no graph, no nodes and no ranks.  Events are known by
keys of any type: handles in the notices of a monitor, names in the steps of a scenario.
-/

namespace WaitFor

/-- Why an append is refused, and the event to blame. -/
inductive Refusal (κ : Type) where
  | unknownWait (key : κ)
  | unknownSignal (key : κ)
  | deadlock (key : κ)
deriving DecidableEq, Repr

/-- The same refusal with another name for the event. -/
def Refusal.map {κ ι : Type} (f : κ → ι) : Refusal κ → Refusal ι
  | unknownWait key => unknownWait (f key)
  | unknownSignal key => unknownSignal (f key)
  | deadlock key => deadlock (f key)

/-- The event to blame. -/
def Refusal.key {κ : Type} : Refusal κ → κ
  | unknownWait key => key
  | unknownSignal key => key
  | deadlock key => key

/-- A refusal under new names is the same as one under names that may be missing, if the name of its
event is not. -/
theorem Refusal.map_some_map {κ ι : Type} {f : κ → ι} {g : κ → Option ι} {refusal : Refusal κ}
    (h : g refusal.key = some (f refusal.key)) : (refusal.map f).map some = refusal.map g := by
  cases refusal with
  | unknownWait key => exact congrArg unknownWait h.symm
  | unknownSignal key => exact congrArg unknownSignal h.symm
  | deadlock key => exact congrArg deadlock h.symm

/-- What a violation refuses, without its texts. -/
def Violation.refusal : Violation → Refusal EventHandle
  | unknownWaitEvent _ event => .unknownWait event
  | unknownSignalEvent _ event => .unknownSignal event
  | deadlock report => .deadlock report.waitEvent

/-- The generations of events and the waits between them: the `current` generation of each live
event, how many generations were `started`, and the pairs of a waited and a signaled generation,
newest first. -/
structure Chronicle (κ : Type) where
  current : κ → Option Nat := fun _ => none
  started : Nat := 0
  waits : List (Nat × Nat) := []

namespace Chronicle

/-! ## Generations -/

variable {κ ι : Type} [DecidableEq κ] [DecidableEq ι]

/-- The event starts a generation, live or not. -/
def create (c : Chronicle κ) (key : κ) : Chronicle κ :=
  { c with
    current := fun other => if key = other then some c.started else c.current other
    started := c.started + 1 }

/-- The event is no longer live. -/
def destroy (c : Chronicle κ) (key : κ) : Chronicle κ :=
  { c with current := fun other => if key = other then none else c.current other }

/-- The event starts another generation if it is live. -/
def reset (c : Chronicle κ) (key : κ) : Chronicle κ :=
  if (c.current key).isSome then c.create key else c

theorem current_create (c : Chronicle κ) (key other : κ) :
    (c.create key).current other = if key = other then some c.started else c.current other := rfl

theorem current_destroy (c : Chronicle κ) (key other : κ) :
    (c.destroy key).current other = if key = other then none else c.current other := rfl

/-! ## Appended operations -/

/-- Waiting on `key` would make the operation that signals `signal` wait for itself. -/
def Blocks (c : Chronicle κ) (signal key : κ) : Prop :=
  key = signal ∨ ∃ γ ∈ c.current signal, ∃ δ ∈ c.current key, Chains c.waits γ δ

instance (c : Chronicle κ) (signal : κ) : DecidablePred (c.Blocks signal) :=
  fun _ => inferInstanceAs (Decidable (_ ∨ _))

/-- The generation of `signal` waits for that of `key`. -/
def addWait (c : Chronicle κ) (signal key : κ) : Chronicle κ :=
  match c.current key, c.current signal with
  | some γ, some δ => { c with waits := (γ, δ) :: c.waits }
  | _, _ => c

/-- The operation that signals `signal` waits on events, one after the other; the waits before a
refused one stay. -/
def awaitAll (c : Chronicle κ) (signal : κ) : List κ → Option (Refusal κ) × Chronicle κ
  | [] => (none, c)
  | key :: keys =>
    if c.Blocks signal key then (some (.deadlock key), c)
    else (c.addWait signal key).awaitAll signal keys

/-- An operation that may signal an event and waits on others. -/
def append (c : Chronicle κ) (signal : Option κ) (waits : List κ) :
    Option (Refusal κ) × Chronicle κ :=
  match waits.find? fun key => (c.current key).isNone with
  | some key => (some (.unknownWait key), c)
  | none =>
    match signal with
    | none => (none, c)
    | some signal =>
      if (c.current signal).isNone then (some (.unknownSignal signal), c)
      else c.awaitAll signal waits

/-- What happens at a notice. -/
def heed (c : Chronicle EventHandle) : Notice → Option (Refusal EventHandle) × Chronicle EventHandle
  | .created event => (none, c.create event)
  | .destroyed event => (none, c.destroy event)
  | .hostReset event => (none, c.reset event)
  | .submitted s => c.append s.signal s.waits

/-- What happens in a step of a scenario. -/
def follow (c : Chronicle String) : Step → Option (Refusal String) × Chronicle String
  | .createEvent name => (none, c.create name)
  | .destroyEvent name => (none, c.destroy name)
  | .resetEvent name => (none, c.reset name)
  | .append _ signal waits => c.append signal waits

/-- What happens in several steps, up to the first that is refused; its position comes with the
refusal. -/
def followAll (c : Chronicle String) : List Step → Option (Nat × Refusal String) × Chronicle String
  | [] => (none, c)
  | step :: steps =>
    match c.follow step with
    | (some refusal, c) => (some (0, refusal), c)
    | (none, c) =>
      let (stop, c) := c.followAll steps
      (stop.map (Prod.map (· + 1) id), c)

/-! ## What an append changes -/

omit [DecidableEq κ] in
/-- A wait starts and ends no generation. -/
@[simp]
theorem addWait_current (c : Chronicle κ) (signal key : κ) :
    (c.addWait signal key).current = c.current := by
  unfold addWait
  split <;> rfl

omit [DecidableEq κ] in
@[simp]
theorem addWait_started (c : Chronicle κ) (signal key : κ) :
    (c.addWait signal key).started = c.started := by
  unfold addWait
  split <;> rfl

/-- Waits start and end no generation. -/
theorem awaitAll_fields (c : Chronicle κ) (signal : κ) (keys : List κ) :
    (c.awaitAll signal keys).2.current = c.current ∧
      (c.awaitAll signal keys).2.started = c.started := by
  induction keys generalizing c with
  | nil => exact ⟨rfl, rfl⟩
  | cons key keys ih =>
    unfold awaitAll
    split
    · exact ⟨rfl, rfl⟩
    · obtain ⟨hcurrent, hstarted⟩ := ih (c.addWait signal key)
      rw [hcurrent, hstarted, addWait_current, addWait_started]
      exact ⟨rfl, rfl⟩

/-- An append starts and ends no generation. -/
theorem append_fields (c : Chronicle κ) (signal : Option κ) (keys : List κ) :
    (c.append signal keys).2.current = c.current ∧
      (c.append signal keys).2.started = c.started := by
  unfold append
  split
  · exact ⟨rfl, rfl⟩
  · split
    · exact ⟨rfl, rfl⟩
    · split
      · exact ⟨rfl, rfl⟩
      · exact c.awaitAll_fields _ keys

/-! ## The wait to blame -/

omit [DecidableEq κ] in
/-- The waits of an operation do not change which other waits of it are blocked. -/
theorem blocks_addWait (c : Chronicle κ) (signal key other : κ) :
    (c.addWait signal key).Blocks signal other ↔ c.Blocks signal other := by
  unfold Blocks
  rw [addWait_current]
  refine or_congr Iff.rfl (exists_congr fun γ => and_congr_right fun hγ =>
    exists_congr fun δ => and_congr_right fun _ => ?_)
  unfold addWait
  rw [Option.mem_def] at hγ
  rw [hγ]
  split
  · next heq =>
    cases heq
    exact Chains.cons_self_iff
  · exact Iff.rfl

/-- The wait to blame is the first that is blocked before any of them. -/
theorem awaitAll_fst (c : Chronicle κ) (signal : κ) (keys : List κ) :
    (c.awaitAll signal keys).1 = (keys.find? fun key => c.Blocks signal key).map .deadlock := by
  induction keys generalizing c with
  | nil => rfl
  | cons key keys ih =>
    unfold awaitAll
    by_cases h : c.Blocks signal key
    · rw [if_pos h, List.find?_cons_of_pos (by simpa using h)]
      rfl
    · rw [if_neg h, List.find?_cons_of_neg (by simpa using h), ih]
      simp only [blocks_addWait]

/-- An append is refused for an event that it mentions. -/
theorem key_mem_of_append {c : Chronicle κ} {signal : Option κ} {keys : List κ}
    {refusal : Refusal κ} (h : (c.append signal keys).1 = some refusal) :
    refusal.key ∈ signal.toList ++ keys := by
  unfold append at h
  split at h
  · next key hfind =>
    rw [← Option.some.inj h]
    exact List.mem_append_right _ (List.mem_of_find?_eq_some hfind)
  · split at h
    · cases h
    · split at h
      · rw [← Option.some.inj h]
        exact List.mem_cons_self
      · rw [awaitAll_fst, Option.map_eq_some_iff] at h
        obtain ⟨key, hfind, rfl⟩ := h
        exact List.mem_append_right _ (List.mem_of_find?_eq_some hfind)

/-- An append of live events is a matter of its waits, if it signals an event at all. -/
theorem append_of_live {c : Chronicle κ} {signal : Option κ} {keys : List κ}
    (hs : ∀ key ∈ signal, (c.current key).isSome = true)
    (hk : ∀ key ∈ keys, (c.current key).isSome = true) :
    c.append signal keys = signal.elim (none, c) fun signal => c.awaitAll signal keys := by
  have hnone : keys.find? (fun key => (c.current key).isNone) = none := by
    refine List.find?_eq_none.2 fun key hm => ?_
    rw [← Option.not_isSome, hk key hm, Bool.not_true]
    exact Bool.false_ne_true
  unfold append
  rw [hnone]
  cases signal with
  | none => rfl
  | some signal =>
    simp only [Option.isNone_eq_false_iff.2 (hs signal rfl)]
    rfl

/-- An append of live events can be refused for a deadlock only. -/
theorem append_fst {c : Chronicle κ} {signal : Option κ} {keys : List κ}
    (hs : ∀ key ∈ signal, (c.current key).isSome = true)
    (hk : ∀ key ∈ keys, (c.current key).isSome = true) :
    (c.append signal keys).1 =
      signal.bind fun signal => (keys.find? fun key => c.Blocks signal key).map .deadlock := by
  rw [append_of_live hs hk]
  cases signal with
  | none => rfl
  | some signal => exact c.awaitAll_fst signal keys

/-! ## Other keys -/

/-- `c` and `d` have the same generations and waits as far as the events `keys` of `c` tell, which
`d` knows under other keys, by `f`. -/
structure Renames (f : κ → ι) (keys : List κ) (c : Chronicle κ) (d : Chronicle ι) : Prop where
  current : ∀ key ∈ keys, d.current (f key) = c.current key
  injOn : ∀ key ∈ keys, ∀ other ∈ keys, f key = f other → key = other
  started : d.started = c.started
  waits : d.waits = c.waits

namespace Renames

variable {f : κ → ι} {keys : List κ} {c : Chronicle κ} {d : Chronicle ι}

omit [DecidableEq κ] [DecidableEq ι] in
/-- A wait is refused under new names exactly if it is refused under the old ones. -/
theorem blocks_iff (h : Renames f keys c d) {signal key : κ} (hs : signal ∈ keys)
    (hk : key ∈ keys) :
    d.Blocks (f signal) (f key) ↔ c.Blocks signal key := by
  unfold Blocks
  rw [h.current signal hs, h.current key hk, h.waits]
  exact or_congr ⟨h.injOn key hk signal hs, congrArg f⟩ Iff.rfl

omit [DecidableEq κ] [DecidableEq ι] in
/-- A wait that is accepted keeps the names apart. -/
theorem addWait (h : Renames f keys c d) {signal key : κ} (hs : signal ∈ keys) (hk : key ∈ keys) :
    Renames f keys (c.addWait signal key) (d.addWait (f signal) (f key)) := by
  refine ⟨?_, h.injOn, ?_, ?_⟩
  · simpa using h.current
  · simpa using h.started
  · unfold Chronicle.addWait
    rw [h.current signal hs, h.current key hk]
    split
    · exact congrArg _ h.waits
    · exact h.waits

/-- Waits fare the same under new names. -/
theorem awaitAll {signal : κ} {waits : List κ} (h : Renames f keys c d) (hs : signal ∈ keys)
    (hw : waits ⊆ keys) :
    (d.awaitAll (f signal) (waits.map f)).1 = (c.awaitAll signal waits).1.map (Refusal.map f) ∧
      Renames f keys (c.awaitAll signal waits).2 (d.awaitAll (f signal) (waits.map f)).2 := by
  induction waits generalizing c d with
  | nil => exact ⟨rfl, h⟩
  | cons key waits ih =>
    obtain ⟨hk, hw⟩ := List.cons_subset.1 hw
    rw [List.map_cons]
    unfold Chronicle.awaitAll
    by_cases hb : c.Blocks signal key
    · rw [if_pos hb, if_pos ((h.blocks_iff hs hk).2 hb)]
      exact ⟨rfl, h⟩
    · rw [if_neg hb, if_neg (mt (h.blocks_iff hs hk).1 hb)]
      exact ih (h.addWait hs hk) hw

/-- The key that an event is known by plays no role in an append. -/
theorem append {signal : Option κ} {waits : List κ} (h : Renames f keys c d)
    (hs : signal.toList ⊆ keys) (hw : waits ⊆ keys) :
    (d.append (signal.map f) (waits.map f)).1 = (c.append signal waits).1.map (Refusal.map f) ∧
      Renames f keys (c.append signal waits).2 (d.append (signal.map f) (waits.map f)).2 := by
  have hfind : (waits.map f).find? (fun key => (d.current key).isNone) =
      (waits.find? fun key => (c.current key).isNone).map f := by
    rw [List.find?_map]
    congr 1
    refine List.find?_congr fun key hm => ?_
    rw [Function.comp_apply, h.current key (hw hm)]
  unfold Chronicle.append
  rw [hfind]
  cases waits.find? fun key => (c.current key).isNone with
  | some key => exact ⟨rfl, h⟩
  | none =>
    cases signal with
    | none => exact ⟨rfl, h⟩
    | some signal =>
      have hs : signal ∈ keys := hs (by simp)
      simp only [Option.map_none, Option.map_some, h.current signal hs]
      split
      · exact ⟨rfl, h⟩
      · exact h.awaitAll hs hw

end Renames

end Chronicle

end WaitFor
