import WaitFor.Simulation

/-! # The handles of a simulation

A simulation is orderly if names share no handles, neither with each other nor with destroyed
events, and if the counter is past every handle in use.  It stays so while the counter does not
overflow, which `Fits` and the number of handles that steps mint make precise.
-/

namespace WaitFor.Simulation

variable {κ : Type} {s s' : Simulation κ} {name : String} {event : EventHandle} {n : Nat}

/-- The counter has room for `n` more handles. -/
def Fits (s : Simulation κ) (n : Nat) : Prop :=
  s.nextHandle.toNat + handleStep.toNat * n < UInt64.size

/-- No handle is in use twice, and none is used that was not handed out. -/
structure Orderly (s : Simulation κ) : Prop where
  inj : ∀ {name other event}, s.handles.get? name = some event →
    s.handles.get? other = some event → name = other
  nodup_free : s.free.Nodup
  not_free : ∀ {name event}, s.handles.get? name = some event → event ∉ s.free
  lt_of_named : ∀ {name event}, s.handles.get? name = some event → event.bits < s.nextHandle
  lt_of_free : ∀ {event}, event ∈ s.free → event.bits < s.nextHandle

/-- The handle was handed out, and no name or destroyed event has it. -/
structure Unused (s : Simulation κ) (event : EventHandle) : Prop where
  not_named : ∀ name, s.handles.get? name ≠ some event
  not_free : event ∉ s.free
  lt : event.bits < s.nextHandle

/-- At first there are no handles to be out of order. -/
theorem Orderly.fresh (layer : Layer κ) : ({ layer } : Simulation κ).Orderly where
  inj := nofun
  nodup_free := List.nodup_nil
  not_free := nofun
  lt_of_named := nofun
  lt_of_free := nofun

/-- The layer and the index of the next event play no role. -/
theorem Orderly.of_eq (h : s.Orderly) (hhandles : s'.handles = s.handles) (hfree : s'.free = s.free)
    (hnext : s'.nextHandle = s.nextHandle) : s'.Orderly := by
  refine ⟨?_, ?_, ?_, ?_, ?_⟩
  · rw [hhandles]
    exact h.inj
  · rw [hfree]
    exact h.nodup_free
  · rw [hhandles, hfree]
    exact h.not_free
  · rw [hhandles, hnext]
    exact h.lt_of_named
  · rw [hfree, hnext]
    exact h.lt_of_free

/-! ## Fresh handles -/

/-- Where many handles fit, fewer do. -/
theorem Fits.mono {m : Nat} (h : s.Fits n) (hle : m ≤ n) : s.Fits m := by
  have := Nat.mul_le_mul_left handleStep.toNat hle
  unfold Fits at h ⊢
  omega

/-- The counter goes up by a handle, as long as it fits. -/
theorem toNat_nextHandle_mintHandle (h : s.Fits (n + 1)) :
    s.mintHandle.2.nextHandle.toNat = s.nextHandle.toNat + handleStep.toNat := by
  have hstep : handleStep.toNat = 64 := rfl
  rw [mintHandle, UInt64.toNat_add]
  unfold Fits at h
  rw [hstep] at h ⊢
  exact Nat.mod_eq_of_lt (show _ < UInt64.size by omega)

/-- A handle that is minted makes the next one larger. -/
theorem nextHandle_mintHandle (h : s.Fits (n + 1)) :
    s.nextHandle < s.mintHandle.2.nextHandle ∧ s.mintHandle.2.Fits n := by
  have hsum := toNat_nextHandle_mintHandle h
  have hstep : handleStep.toNat = 64 := rfl
  unfold Fits at h ⊢
  rw [hstep] at h hsum ⊢
  rw [UInt64.lt_iff_toNat_lt, hsum]
  omega

/-- A minted handle was not in use. -/
theorem Orderly.mintHandle (h : s.Orderly) (hfit : s.Fits (n + 1)) :
    s.mintHandle.2.Orderly ∧ s.mintHandle.2.Unused s.mintHandle.1 := by
  have hlt := (nextHandle_mintHandle hfit).1
  refine ⟨⟨h.inj, h.nodup_free, h.not_free, ?_, ?_⟩, ⟨?_, ?_, hlt⟩⟩
  · intro name event hname
    exact UInt64.lt_trans (h.lt_of_named hname) hlt
  · intro event hfree
    exact UInt64.lt_trans (h.lt_of_free hfree) hlt
  · intro name hname
    exact UInt64.lt_irrefl _ (h.lt_of_named hname)
  · intro hfree
    exact UInt64.lt_irrefl _ (h.lt_of_free hfree)

/-- An unused handle may be given to any name. -/
theorem Orderly.insert (h : s.Orderly) (hunused : s.Unused event) (name : String) :
    { s with handles := s.handles.insert name event }.Orderly := by
  have hget : ∀ {other e}, (s.handles.insert name event).get? other = some e →
      name = other ∧ event = e ∨ s.handles.get? other = some e ∧ event ≠ e := by
    intro other e he
    rw [Table.get?_insert] at he
    split at he
    · next hname => exact Or.inl ⟨hname, Option.some.inj he⟩
    · refine Or.inr ⟨he, ?_⟩
      rintro rfl
      exact hunused.not_named other he
  refine ⟨?_, h.nodup_free, ?_, ?_, h.lt_of_free⟩
  · intro other other' e he he'
    rcases hget he with ⟨rfl, rfl⟩ | ⟨he, hne⟩
    · rcases hget he' with ⟨rfl, -⟩ | ⟨-, hne⟩
      · rfl
      · exact absurd rfl hne
    · rcases hget he' with ⟨-, rfl⟩ | ⟨he', -⟩
      · exact absurd rfl hne
      · exact h.inj he he'
  · intro other e he
    rcases hget he with ⟨-, rfl⟩ | ⟨he, -⟩
    · exact hunused.not_free
    · exact h.not_free he
  · intro other e he
    rcases hget he with ⟨-, rfl⟩ | ⟨he, -⟩
    · exact hunused.lt
    · exact h.lt_of_named he

/-- How many handles the creation of an event mints. -/
def mintsToCreate (s : Simulation κ) : Nat := if s.free.isEmpty then 1 else 0

/-- Without free handles a new one is minted. -/
theorem takeHandle_of_nil (h : s.free = []) : s.takeHandle = s.mintHandle := by
  rw [Simulation.takeHandle, h]

/-- The handle that was freed last is handed out first. -/
theorem takeHandle_of_cons {free : List EventHandle} (h : s.free = event :: free) :
    s.takeHandle = (event, { s with free }) := by
  rw [Simulation.takeHandle, h]

/-- The handle taken for a created event was not in use. -/
theorem Orderly.takeHandle (h : s.Orderly) (hfit : s.Fits (s.mintsToCreate + n)) :
    s.takeHandle.2.Orderly ∧ s.takeHandle.2.Unused s.takeHandle.1 ∧ s.takeHandle.2.Fits n ∧
      s.nextHandle ≤ s.takeHandle.2.nextHandle := by
  unfold mintsToCreate at hfit
  unfold Simulation.takeHandle
  cases hfree : s.free with
  | nil =>
    rw [hfree, List.isEmpty_nil, if_pos rfl, Nat.add_comm] at hfit
    obtain ⟨hlt, hfit'⟩ := nextHandle_mintHandle hfit
    obtain ⟨hord, hunused⟩ := h.mintHandle hfit
    exact ⟨hord, hunused, hfit', UInt64.le_of_lt hlt⟩
  | cons event free =>
    rw [hfree, List.isEmpty_cons, if_neg Bool.false_ne_true, Nat.zero_add] at hfit
    have hnodup := h.nodup_free
    rw [hfree, List.nodup_cons] at hnodup
    have hsub : ∀ e ∈ free, e ∈ s.free := by
      intro e he
      rw [hfree]
      exact List.mem_cons_of_mem event he
    have hmem : event ∈ s.free := by
      rw [hfree]
      exact List.mem_cons_self
    refine ⟨⟨h.inj, hnodup.2, ?_, h.lt_of_named, ?_⟩, ⟨?_, hnodup.1, h.lt_of_free hmem⟩, hfit,
      UInt64.le_refl _⟩
    · intro name e hname he
      exact h.not_free hname (hsub e he)
    · intro e he
      exact h.lt_of_free (hsub e he)
    · intro name hname
      exact h.not_free hname hmem

/-- A name may be dropped; nobody has its handle then. -/
theorem Orderly.erase (h : s.Orderly) (hname : s.handles.get? name = some event) :
    { s with handles := s.handles.erase name }.Orderly ∧
      { s with handles := s.handles.erase name }.Unused event := by
  have hget : ∀ {other e}, (s.handles.erase name).get? other = some e →
      s.handles.get? other = some e ∧ e ≠ event := by
    intro other e he
    rw [Table.get?_erase] at he
    split at he
    · cases he
    · next hne =>
      refine ⟨he, ?_⟩
      rintro rfl
      exact hne (h.inj hname he)
  refine ⟨⟨?_, h.nodup_free, ?_, ?_, h.lt_of_free⟩, ⟨?_, h.not_free hname, h.lt_of_named hname⟩⟩
  · intro other other' e he he'
    exact h.inj (hget he).1 (hget he').1
  · intro other e he
    exact h.not_free (hget he).1
  · intro other e he
    exact h.lt_of_named (hget he).1
  · intro other he
    exact (hget he).2 rfl

/-- An unused handle may be kept for later. -/
theorem Orderly.recycle (h : s.Orderly) (hunused : s.Unused event) :
    { s with free := event :: s.free }.Orderly := by
  refine ⟨h.inj, List.nodup_cons.2 ⟨hunused.not_free, h.nodup_free⟩, ?_, h.lt_of_named, ?_⟩
  · intro other e he hmem
    rcases List.mem_cons.1 hmem with rfl | hmem
    · exact hunused.not_named other he
    · exact h.not_free he hmem
  · intro e he
    rcases List.mem_cons.1 he with rfl | he
    · exact hunused.lt
    · exact h.lt_of_free he

/-- The handle of a destroyed event is free. -/
theorem Orderly.free (h : s.Orderly) (hname : s.handles.get? name = some event) :
    { s with handles := s.handles.erase name, free := event :: s.free }.Orderly :=
  (h.erase hname).1.recycle (h.erase hname).2

/-! ## Handles of names -/

/-- The handle of a name, once it has one. -/
def handle (s : Simulation κ) (name : String) : EventHandle := (s.handles.get? name).getD default

/-- `s'` differs from `s` in handles minted for names that had none. -/
structure Extends (s s' : Simulation κ) : Prop where
  layer : s'.layer = s.layer
  nextHandle : s.nextHandle ≤ s'.nextHandle
  old : ∀ {name event}, s.handles.get? name = some event → s'.handles.get? name = some event
  new : ∀ {name event}, s.handles.get? name = none → s'.handles.get? name = some event →
    s.nextHandle ≤ event.bits

/-- Handles extend themselves. -/
theorem Extends.refl (s : Simulation κ) : Extends s s := by
  refine ⟨rfl, UInt64.le_refl _, id, fun hnone hsome => ?_⟩
  rw [hnone] at hsome
  cases hsome

/-- What extends twice extends. -/
theorem Extends.trans {t : Simulation κ} (h : Extends s t) (h' : Extends t s') : Extends s s' := by
  refine ⟨h'.layer.trans h.layer, UInt64.le_trans h.nextHandle h'.nextHandle,
    fun hsome => h'.old (h.old hsome), fun {name event} hnone hsome => ?_⟩
  cases ht : t.handles.get? name with
  | none => exact UInt64.le_trans h.nextHandle (h'.new ht hsome)
  | some e =>
    rw [h'.old ht] at hsome
    exact Option.some.inj hsome ▸ h.new hnone ht

/-- How many handles are minted for names that a step mentions. -/
def mintsFor (s : Simulation κ) : List String → Nat
  | [] => 0
  | name :: names => (if s.handles.contains name then 0 else 1) + (s.handleOf name).2.mintsFor names

/-- Looking up a name keeps the handles in order, and knows the name from then on. -/
theorem Orderly.handleOf (h : s.Orderly)
    (hfit : s.Fits ((if s.handles.contains name then 0 else 1) + n)) :
    (s.handleOf name).2.Orderly ∧ Extends s (s.handleOf name).2 ∧ (s.handleOf name).2.Fits n ∧
      (s.handleOf name).2.handles.get? name = some (s.handleOf name).1 := by
  unfold Simulation.handleOf
  unfold Table.contains at hfit
  cases hname : s.handles.get? name with
  | some event =>
    rw [hname, Option.isSome_some, if_pos rfl, Nat.zero_add] at hfit
    exact ⟨h, .refl s, hfit, hname⟩
  | none =>
    rw [hname, Option.isSome_none, if_neg Bool.false_ne_true, Nat.add_comm] at hfit
    obtain ⟨hlt, hfit'⟩ := nextHandle_mintHandle hfit
    obtain ⟨hord, hunused⟩ := h.mintHandle hfit
    have hget : ∀ other, (s.handles.insert name s.mintHandle.1).get? other =
        if name = other then some s.mintHandle.1 else s.handles.get? other :=
      fun other => Table.get?_insert _ _ _ _
    refine ⟨hord.insert hunused name, ⟨rfl, UInt64.le_of_lt hlt, ?_, ?_⟩, hfit', ?_⟩
    · intro other e he
      refine (hget other).trans ?_
      rw [if_neg, he]
      rintro rfl
      rw [hname] at he
      cases he
    · intro other e hnone hsome
      replace hsome := (hget other).symm.trans hsome
      split at hsome
      · rw [← Option.some.inj hsome]
        exact UInt64.le_refl _
      · rw [hnone] at hsome
        cases hsome
    · exact (hget name).trans (if_pos rfl)

theorem handlesOf_cons (s : Simulation κ) (name : String) (names : List String) :
    s.handlesOf (name :: names) =
      ((s.handleOf name).1 :: ((s.handleOf name).2.handlesOf names).1,
        ((s.handleOf name).2.handlesOf names).2) := rfl

/-- Resolving names keeps order, and every name resolved has its handle afterwards. -/
theorem Orderly.handlesOf {names : List String} (h : s.Orderly)
    (hfit : s.Fits (s.mintsFor names + n)) :
    (s.handlesOf names).2.Orderly ∧ Extends s (s.handlesOf names).2 ∧
      (s.handlesOf names).2.Fits n ∧
      (s.handlesOf names).1 = names.map (s.handlesOf names).2.handle ∧
      ∀ name ∈ names, (s.handlesOf names).2.handles.get? name =
        some ((s.handlesOf names).2.handle name) := by
  induction names generalizing s with
  | nil =>
    rw [mintsFor, Nat.zero_add] at hfit
    exact ⟨h, .refl s, hfit, rfl, fun name hm => by cases hm⟩
  | cons name names ih =>
    rw [mintsFor, Nat.add_assoc] at hfit
    obtain ⟨hord, hext, hfit, hname⟩ := h.handleOf hfit
    obtain ⟨hord, hext', hfit, hall, hnames⟩ := ih hord hfit
    have hname' := hext'.old hname
    have hhandle : ((s.handleOf name).2.handlesOf names).2.handle name = (s.handleOf name).1 := by
      rw [handle, hname', Option.getD_some]
    rw [handlesOf_cons]
    refine ⟨hord, hext.trans hext', hfit, ?_, ?_⟩
    · rw [List.map_cons, hhandle, ← hall]
    · intro other hm
      rcases List.mem_cons.1 hm with rfl | hm
      · exact hname'.trans (congrArg some hhandle.symm)
      · exact hnames other hm

end WaitFor.Simulation
