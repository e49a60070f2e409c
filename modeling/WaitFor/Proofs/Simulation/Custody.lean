import WaitFor.Proofs.Layer.Registration
import WaitFor.Proofs.Monitor.Usage
import WaitFor.Proofs.Simulation.Answers

/-!
# Who has which handle

Three parties deal with the handles of a simulation: names have some, others are free, and the layer
was told of the creation and destruction of events.  `Simulation.Custody` ties the three together,
whatever observers the layer has and whatever they answer.  A handle moves on in four ways only: the
next one is minted (`Custody.mintHandle`), a spare one is given to a name (`Custody.give`), a name
lets go of one (`Custody.release`), and a spare one becomes free (`Custody.recycle`).

What the layer was told is kept as a list of notices, so custody holds without any monitor.  A
monitor that was told the same has the same events live.
-/

namespace WaitFor

/-- A step that is accepted or not, as far as it bears on names: the creation of an event that is
refused leaves nothing behind.  The name of a destroyed event is gone either way. -/
def Step.leaves (step : Step) (accepted : Bool) : List Step :=
  if accepted || !step.creates then [step] else []

/-- A step that creates nothing leaves itself in the history. -/
theorem Step.leaves_of_not_creates {step : Step} (h : step.creates = false) (accepted : Bool) :
    step.leaves accepted = [step] := by
  simp [leaves, h]

namespace Simulation

variable {κ : Type} {s : Simulation κ} {name : String} {event : EventHandle} {n : Nat}
  {told told' : List Notice} {history history' : List Step}

/-! ## Handles on the grid -/

/-- The handle is the first one that a fresh simulation hands out, or some steps past it. -/
def OnGrid (bits : UInt64) : Prop := ∃ k, bits.toNat = 0xe000 + 0x40 * k

/-- The counter stays on the grid as long as it does not overflow. -/
theorem onGrid_mintHandle (h : OnGrid s.nextHandle) (hfit : s.Fits (n + 1)) :
    OnGrid s.mintHandle.2.nextHandle := by
  obtain ⟨k, hk⟩ := h
  refine ⟨k + 1, ?_⟩
  have hstep : handleStep.toNat = 0x40 := rfl
  rw [toNat_nextHandle_mintHandle hfit, hk, hstep]
  omega

/-! ## Custody -/

/-- Of the steps taken that create or destroy the event called `name`, the last creates it. -/
def Created (history : List Step) (name : String) : Prop :=
  Latest (.createEvent name) (.destroyEvent name) history

instance (history : List Step) : DecidablePred (Created history) :=
  fun _ => inferInstanceAs (Decidable (Latest _ _ _))

/-- A destruction ends the life of its name only. -/
theorem created_concat_destroyEvent_iff {other : String} :
    Created (history ++ [.destroyEvent name]) other ↔ other ≠ name ∧ Created history other := by
  rw [Created, latest_concat_iff]
  simp [Created, eq_comm]

/-- The handles of a simulation after the steps of `history` were taken and its layer was told the
notices `told`. -/
structure Custody (s : Simulation κ) (told : List Notice) (history : List Step) : Prop where
  orderly : s.Orderly
  onGrid_next : OnGrid s.nextHandle
  onGrid_of_named : ∀ {name event}, s.handles.get? name = some event → OnGrid event.bits
  onGrid_of_free : ∀ {event}, event ∈ s.free → OnGrid event.bits
  lt_of_live : ∀ {event}, Monitor.CreatedLast told event → event.bits < s.nextHandle
  not_live_of_free : ∀ {event}, event ∈ s.free → ¬ Monitor.CreatedLast told event
  live_iff : ∀ {name event}, s.handles.get? name = some event →
    (Monitor.CreatedLast told event ↔ Created history name)
  named : ∀ {name}, Created history name → s.handles.get? name ≠ none

/-- The handle is unused, and not that of a live event. -/
structure Spare (s : Simulation κ) (told : List Notice) (event : EventHandle) : Prop
    extends s.Unused event where
  onGrid : OnGrid event.bits
  not_live : ¬ Monitor.CreatedLast told event

namespace Custody

/-- At first nothing is in custody. -/
theorem fresh (layer : Layer κ) : ({ layer } : Simulation κ).Custody [] [] where
  orderly := .fresh layer
  onGrid_next := ⟨0, rfl⟩
  onGrid_of_named := nofun
  onGrid_of_free := nofun
  lt_of_live := nofun
  not_live_of_free := nofun
  live_iff := nofun
  named := nofun

/-- The layer and the index of the next event play no role. -/
theorem of_layer (h : s.Custody told history) (layer : Layer κ) (nextIndex : UInt32) :
    { s with layer, nextIndex }.Custody told history :=
  { h with orderly := h.orderly.of_eq rfl rfl rfl }

/-- Of the notices and steps, only those that create or destroy events matter. -/
theorem of_iff (h : s.Custody told history)
    (hlive : ∀ event, Monitor.CreatedLast told' event ↔ Monitor.CreatedLast told event)
    (hcreated : ∀ name, Created history' name ↔ Created history name) : s.Custody told' history' :=
  { h with
    lt_of_live := fun he => h.lt_of_live ((hlive _).1 he)
    not_live_of_free := fun hfree he => h.not_live_of_free hfree ((hlive _).1 he)
    live_iff := fun hname => by rw [hlive, hcreated, h.live_iff hname]
    named := fun hname => h.named ((hcreated _).1 hname) }

/-! ## How handles move on -/

/-- A minted handle is spare. -/
theorem mintHandle (h : s.Custody told history) (hfit : s.Fits (n + 1)) :
    s.mintHandle.2.Custody told history ∧ s.mintHandle.2.Spare told s.mintHandle.1 := by
  obtain ⟨hord, hunused⟩ := h.orderly.mintHandle hfit
  refine ⟨?_, hunused, h.onGrid_next, fun hlive => UInt64.lt_irrefl _ (h.lt_of_live hlive)⟩
  exact { h with
    orderly := hord
    onGrid_next := onGrid_mintHandle h.onGrid_next hfit
    lt_of_live := fun hlive => UInt64.lt_trans (h.lt_of_live hlive) (nextHandle_mintHandle hfit).1 }

/-- The handle taken for a created event was not live, even if the counter overflows now. -/
theorem not_live_takeHandle (h : s.Custody told history) :
    ¬ Monitor.CreatedLast told s.takeHandle.1 := by
  cases hfree : s.free with
  | nil =>
    rw [takeHandle_of_nil hfree]
    exact fun hlive => UInt64.lt_irrefl _ (h.lt_of_live hlive)
  | cons event free =>
    rw [takeHandle_of_cons hfree]
    exact h.not_live_of_free (hfree ▸ List.mem_cons_self)

/-- The handle taken for a created event is spare. -/
theorem takeHandle (h : s.Custody told history) (hfit : s.Fits (s.mintsToCreate + n)) :
    s.takeHandle.2.Custody told history ∧ s.takeHandle.2.Spare told s.takeHandle.1 ∧
      s.takeHandle.2.Fits n := by
  obtain ⟨hord, hunused, hfit', -⟩ := h.orderly.takeHandle hfit
  unfold mintsToCreate at hfit
  cases hfree : s.free with
  | nil =>
    rw [takeHandle_of_nil hfree] at hfit' ⊢
    rw [hfree, List.isEmpty_nil, if_pos rfl, Nat.add_comm] at hfit
    obtain ⟨hcustody, hspare⟩ := h.mintHandle hfit
    exact ⟨hcustody, hspare, hfit'⟩
  | cons event free =>
    rw [takeHandle_of_cons hfree] at hord hunused hfit' ⊢
    have hsub : ∀ {e}, e ∈ event :: free → e ∈ s.free := fun he => hfree ▸ he
    have hmem : event ∈ s.free := hsub List.mem_cons_self
    refine ⟨?_, ⟨hunused, h.onGrid_of_free hmem, h.not_live_of_free hmem⟩, hfit'⟩
    exact { h with
      orderly := hord
      onGrid_of_free := fun he => h.onGrid_of_free (hsub (List.mem_cons_of_mem event he))
      not_live_of_free := fun he => h.not_live_of_free (hsub (List.mem_cons_of_mem event he)) }

/-- The event of a spare handle may be created. -/
theorem tell_created (h : s.Custody told history) (hspare : s.Spare told event) :
    s.Custody (told ++ [.created event]) history := by
  have hlive : ∀ {e}, e ≠ event →
      (Monitor.CreatedLast (told ++ [.created event]) e ↔ Monitor.CreatedLast told e) := by
    intro e hne
    rw [Monitor.CreatedLast, latest_concat_iff]
    simp [Monitor.CreatedLast, hne.symm]
  refine { h with lt_of_live := ?_, not_live_of_free := ?_, live_iff := ?_ }
  · intro e he
    by_cases heq : e = event
    · exact heq ▸ hspare.lt
    · exact h.lt_of_live ((hlive heq).1 he)
  · intro e hfree he
    have hne : e ≠ event := fun heq => hspare.not_free (heq ▸ hfree)
    exact h.not_live_of_free hfree ((hlive hne).1 he)
  · intro other e he
    have hne : e ≠ event := fun heq => hspare.not_named other (heq ▸ he)
    rw [hlive hne, h.live_iff he]

/-- An unused handle may be given to a name, if the name counts as created accordingly. -/
theorem give (h : s.Custody told history) (hunused : s.Unused event) (hgrid : OnGrid event.bits)
    (hother : ∀ other, other ≠ name → (Created history' other ↔ Created history other))
    (hname : Monitor.CreatedLast told event ↔ Created history' name) :
    { s with handles := s.handles.insert name event }.Custody told history' := by
  have hget : ∀ {other e}, (s.handles.insert name event).get? other = some e →
      other = name ∧ e = event ∨ other ≠ name ∧ s.handles.get? other = some e := by
    intro other e he
    rw [Table.get?_insert] at he
    split at he
    · next heq => exact Or.inl ⟨heq.symm, (Option.some.inj he).symm⟩
    · next hne => exact Or.inr ⟨Ne.symm hne, he⟩
  refine { h with
    orderly := h.orderly.insert hunused name, onGrid_of_named := ?_, live_iff := ?_, named := ?_ }
  · intro other e he
    obtain ⟨-, rfl⟩ | ⟨-, he⟩ := hget he
    · exact hgrid
    · exact h.onGrid_of_named he
  · intro other e he
    obtain ⟨rfl, rfl⟩ | ⟨hne, he⟩ := hget he
    · exact hname
    · rw [hother other hne, h.live_iff he]
  · intro other hcreated
    rw [Table.get?_insert]
    split
    · exact Option.some_ne_none _
    · next hne => exact h.named ((hother other (Ne.symm hne)).1 hcreated)

/-- A name lets go of its handle when its event is destroyed, and the handle is spare. -/
theorem release (h : s.Custody told history) (hname : s.handles.get? name = some event) :
    { s with handles := s.handles.erase name }.Custody (told ++ [Notice.destroyed event])
        (history ++ [Step.destroyEvent name]) ∧
      { s with handles := s.handles.erase name }.Spare
        (told ++ [Notice.destroyed event]) event := by
  obtain ⟨hord, hunused⟩ := h.orderly.erase hname
  have hget : ∀ {other e}, (s.handles.erase name).get? other = some e →
      other ≠ name ∧ e ≠ event ∧ s.handles.get? other = some e := by
    intro other e he
    have hne : e ≠ event := fun heq => hunused.not_named other (heq ▸ he)
    rw [Table.get?_erase] at he
    split at he
    · cases he
    · next hother => exact ⟨Ne.symm hother, hne, he⟩
  have hlive : ∀ {e}, Monitor.CreatedLast (told ++ [.destroyed event]) e ↔
      e ≠ event ∧ Monitor.CreatedLast told e := by
    intro e
    rw [Monitor.CreatedLast, latest_concat_iff]
    simp [Monitor.CreatedLast, eq_comm]
  refine ⟨?_, hunused, h.onGrid_of_named hname, fun he => (hlive.1 he).1 rfl⟩
  refine ⟨hord, h.onGrid_next, ?_, h.onGrid_of_free, ?_, ?_, ?_, ?_⟩
  · exact fun he => h.onGrid_of_named (hget he).2.2
  · exact fun he => h.lt_of_live (hlive.1 he).2
  · exact fun hfree he => h.not_live_of_free hfree (hlive.1 he).2
  · intro other e he
    obtain ⟨hother, hne, he⟩ := hget he
    rw [hlive, created_concat_destroyEvent_iff, h.live_iff he, and_iff_right hne,
      and_iff_right hother]
  · intro other hother
    obtain ⟨hne, hother⟩ := created_concat_destroyEvent_iff.1 hother
    rw [Table.get?_erase, if_neg hne.symm]
    exact h.named hother

/-- A spare handle may be kept for later. -/
theorem recycle (h : s.Custody told history) (hspare : s.Spare told event) :
    { s with free := event :: s.free }.Custody told history := by
  refine { h with
    orderly := h.orderly.recycle hspare.toUnused, onGrid_of_free := ?_, not_live_of_free := ?_ }
  · intro e hfree
    rcases List.mem_cons.1 hfree with rfl | hfree
    · exact hspare.onGrid
    · exact h.onGrid_of_free hfree
  · intro e hfree
    rcases List.mem_cons.1 hfree with rfl | hfree
    · exact hspare.not_live
    · exact h.not_live_of_free hfree

/-! ## Steps -/

/-- A handle that is invented for a name is not live, and the name does not count as created. -/
theorem handleOf (h : s.Custody told history)
    (hfit : s.Fits ((if s.handles.contains name then 0 else 1) + n)) :
    (s.handleOf name).2.Custody told history ∧ (s.handleOf name).2.Fits n := by
  refine ⟨?_, (h.orderly.handleOf hfit).2.2.1⟩
  unfold Simulation.handleOf
  cases hname : s.handles.get? name with
  | some event => exact h
  | none =>
    rw [Table.contains, hname, Option.isSome_none, if_neg Bool.false_ne_true, Nat.add_comm] at hfit
    obtain ⟨hminted, hspare⟩ := h.mintHandle hfit
    refine hminted.give hspare.toUnused hspare.onGrid (fun _ _ => Iff.rfl) ?_
    exact iff_of_false hspare.not_live fun hcreated => h.named hcreated hname

/-- Looking up handles keeps custody of all of them. -/
theorem handlesOf {names : List String} (h : s.Custody told history)
    (hfit : s.Fits (s.mintsFor names + n)) :
    (s.handlesOf names).2.Custody told history ∧ (s.handlesOf names).2.Fits n := by
  induction names generalizing s with
  | nil =>
    rw [mintsFor, Nat.zero_add] at hfit
    exact ⟨h, hfit⟩
  | cons name names ih =>
    rw [mintsFor, Nat.add_assoc] at hfit
    obtain ⟨h, hfit⟩ := h.handleOf hfit
    exact ih h hfit

/-- A step that is neither a creation nor a destruction leaves the events alone. -/
theorem heed (h : s.Custody told history) {notice : Notice} {step : Step}
    (hnotice : ∀ event, notice ≠ .created event ∧ notice ≠ .destroyed event)
    (hstep : ∀ name, step ≠ .createEvent name ∧ step ≠ .destroyEvent name) :
    s.Custody (told ++ [notice]) (history ++ [step]) := by
  refine h.of_iff (fun event => ?_) (fun name => ?_)
  · rw [Monitor.CreatedLast, latest_concat_iff, or_iff_right (hnotice event).1,
      and_iff_right (hnotice event).2]
    rfl
  · rw [Created, latest_concat_iff, or_iff_right (hstep name).1, and_iff_right (hstep name).2]
    rfl

/-- Whatever the answer to a step is, custody is kept. -/
theorem settle {step : Step} (h : s.Custody told history) (hfit : s.Fits (s.mints step + n))
    (accepted : Bool) :
    (s.settle accepted step).Custody (told ++ (s.notice? step).toList)
        (history ++ step.leaves accepted) ∧
      (s.settle accepted step).Fits n := by
  cases step with
  | createEvent name =>
    have h₁ := h.of_layer s.layer (s.nextIndex + 1)
    rw [Simulation.notice?, Simulation.settle, ← s.takeHandle_fst (s.nextIndex + 1)]
    obtain ⟨h₂, hspare, hfit⟩ := h₁.takeHandle (n := n) hfit
    have h₃ := h₂.tell_created hspare
    cases accepted with
    | false => exact ⟨(List.append_nil history).symm ▸ h₃, hfit⟩
    | true =>
      refine ⟨h₃.give hspare.toUnused hspare.onGrid (fun other hne => ?_) ?_, hfit⟩
      · show Latest _ _ (history ++ [_]) ↔ _
        rw [latest_concat_iff]
        simp [Created, hne.symm]
      · exact iff_of_true (latest_concat_iff.2 (Or.inl rfl)) (latest_concat_iff.2 (Or.inl rfl))
  | destroyEvent name =>
    have hfit : s.Fits n := hfit.mono (Nat.le_add_left n 0)
    rw [Simulation.notice?, Simulation.settle, Step.leaves_of_not_creates rfl]
    cases hname : s.handles.get? name with
    | none =>
      refine ⟨h.of_iff (fun event => by simp) fun other => ?_, hfit⟩
      rw [created_concat_destroyEvent_iff]
      exact and_iff_right_of_imp fun hcreated heq => h.named hcreated (heq ▸ hname)
    | some event =>
      obtain ⟨hreleased, hspare⟩ := h.release hname
      cases accepted with
      | false => exact ⟨hreleased, hfit⟩
      | true => exact ⟨hreleased.recycle hspare, hfit⟩
  | resetEvent name =>
    obtain ⟨h, hfit⟩ := h.handlesOf hfit
    rw [Step.leaves_of_not_creates rfl]
    exact ⟨h.heed (by simp) (by simp), hfit⟩
  | append operation signal waits =>
    obtain ⟨h, hfit⟩ := h.handlesOf hfit
    rw [Step.leaves_of_not_creates rfl, settle_append]
    exact ⟨h.heed (by simp) (by simp), hfit⟩

end Custody

/-! ## Runs -/

section Runs

variable [Observer κ] {layer : Layer κ}

/-- What steps leave behind, up to the first that is refused. -/
def taken (s : Simulation κ) : List Step → List Step
  | [] => []
  | step :: steps =>
    match s.step step with
    | (.error _, _) => step.leaves false
    | (.ok (), s) => step :: s.taken steps

/-- What scenarios leave behind, one after the other. -/
def takenOverRuns (s : Simulation κ) : List Scenario → List Step
  | [] => []
  | scenario :: scenarios => s.taken scenario.steps ++ (s.run scenario).2.takenOverRuns scenarios

/-- Custody after the steps of `history`, with a monitor that was told all there was to tell if
`layer` had one before. -/
def Follows (layer : Layer κ) (s : Simulation κ) (history : List Step) : Prop :=
  ∃ told, s.Custody told history ∧ ∀ m, layer.OwnFirst m → s.layer.OwnFirst (m.afterAll told)

namespace Follows

omit [Observer κ] in
/-- At first nothing has happened. -/
theorem fresh (layer : Layer κ) : Follows layer { layer } [] :=
  ⟨[], .fresh layer, fun _ hm => hm⟩

/-- A step keeps custody of the handles, and tells the monitor of what it did. -/
theorem step {step : Step} (h : Follows layer s history) (hfit : s.Fits (s.mints step + n)) :
    Follows layer (s.step step).2 (history ++ step.leaves (s.step step).1.isOk) ∧
      (s.step step).2.Fits n := by
  obtain ⟨told, hcustody, hlayer⟩ := h
  obtain ⟨hcustody, hfit⟩ := hcustody.settle hfit (s.step step).1.isOk
  have heq := s.step_eq step
  rw [heq] at hcustody hfit ⊢
  refine ⟨⟨_, hcustody.of_layer _ _, fun m hm => ?_⟩, hfit⟩
  rw [Monitor.afterAll_append]
  exact (hlayer m hm).deliver (s.notice? step)

/-- A run keeps custody of the handles. -/
theorem runSteps {steps : List Step} (h : Follows layer s history)
    (hfit : s.Fits (s.mintsOver steps + n)) (counts : RunCounts) :
    Follows layer (s.runSteps counts steps).2 (history ++ s.taken steps) ∧
      (s.runSteps counts steps).2.Fits n := by
  induction steps generalizing s history counts with
  | nil =>
    rw [mintsOver, Nat.zero_add] at hfit
    exact ⟨(List.append_nil history).symm ▸ h, hfit⟩
  | cons step steps ih =>
    rw [mintsOver, Nat.add_assoc] at hfit
    obtain ⟨h, hfit⟩ := h.step hfit
    rw [Simulation.runSteps, Simulation.taken]
    rcases hstep : s.step step with ⟨violation | ⟨⟩, t⟩
    · rw [hstep] at h hfit
      exact ⟨h, hfit.mono (Nat.le_add_left n 0)⟩
    · rw [hstep] at h hfit
      have htaken : history ++ step :: t.taken steps =
          history ++ step.leaves true ++ t.taken steps := by
        rw [Step.leaves, Bool.true_or, if_pos rfl, List.append_assoc, List.singleton_append]
      rw [htaken]
      exact ih h hfit (counts.count step)

/-- Runs keep custody of the handles. -/
theorem afterRuns {scenarios : List Scenario} (h : Follows layer s history)
    (hfit : s.Fits (s.mintsOverRuns scenarios)) :
    Follows layer (s.afterRuns scenarios) (history ++ s.takenOverRuns scenarios) := by
  induction scenarios generalizing s history with
  | nil => exact (List.append_nil history).symm ▸ h
  | cons scenario scenarios ih =>
    rw [mintsOverRuns] at hfit
    obtain ⟨h, hfit⟩ := h.runSteps hfit {}
    rw [takenOverRuns, ← List.append_assoc]
    exact ih h hfit

end Follows

/-- An accepted creation gives the name the handle that the layer was told of. -/
theorem get?_createEvent (h : (s.createEvent name).1 = .ok ()) :
    (s.createEvent name).2.handles.get? name = some s.takeHandle.1 := by
  have heq : s.createEvent name = _ := s.step_eq (.createEvent name)
  rw [heq] at h ⊢
  rw [h]
  show (Table.insert _ name _).get? name = _
  rw [Table.get?_insert, if_pos rfl]
  exact congrArg some (s.takeHandle_fst _)

/-- After any scenarios, those that were stopped included, no handle is in two hands: names have
handles of their own, no handle is free twice, and none is both free and that of a name.  All these
handles were handed out one step after the other, and the counter is past them.  The layer may have
any observers that answer in any way.

If it has a deadlock monitor from the start, then no free handle is live there, the handle of a name
is live exactly if the name was created since it was last destroyed (and the handle was not invented
for it), and every creation of an event tells the monitor of a handle that is not live.

The state within a scenario is the one after a shorter scenario, so all this holds there as well. -/
theorem afterRuns_keeps_handles_apart (layer : Layer κ) (scenarios : List Scenario)
    (hfit : ({ layer } : Simulation κ).Fits
      (({ layer } : Simulation κ).mintsOverRuns scenarios)) :
    let s := ({ layer } : Simulation κ).afterRuns scenarios
    (∀ name other event, s.handles.get? name = some event →
      s.handles.get? other = some event → name = other) ∧
    s.free.Nodup ∧
    (∀ name event, s.handles.get? name = some event → event ∉ s.free) ∧
    (∀ event, (∃ name, s.handles.get? name = some event) ∨ event ∈ s.free →
      event.bits < s.nextHandle ∧ ∃ k, event.bits.toNat = 0xe000 + 0x40 * k) ∧
    ∀ (settings : LayerSettings) (others : List (Hosted κ)), settings.enabled = true →
      layer = (Layer.fresh settings).serveAll (others.map .register) →
      ∃ m, s.layer.ownMonitor? = some m ∧
        (∀ event ∈ s.free, m.live.contains event = false) ∧
        (∀ name event, s.handles.get? name = some event → (m.live.contains event = true ↔
          Created (({ layer } : Simulation κ).takenOverRuns scenarios) name)) ∧
        ∀ name, ∃ event, m.live.contains event = false ∧
          (s.createEvent name).2.layer.ownMonitor? =
            some (Observer.notify m (.created event)).state ∧
          ((s.createEvent name).1 = .ok () →
            (s.createEvent name).2.handles.get? name = some event) := by
  intro s
  obtain ⟨told, h, hlayer⟩ := (Follows.fresh layer).afterRuns hfit
  rw [List.nil_append] at h
  refine ⟨fun _ _ _ => h.orderly.inj, h.orderly.nodup_free, fun _ _ => h.orderly.not_free, ?_, ?_⟩
  · rintro event (⟨name, hname⟩ | hfree)
    · exact ⟨h.orderly.lt_of_named hname, h.onGrid_of_named hname⟩
    · exact ⟨h.orderly.lt_of_free hfree, h.onGrid_of_free hfree⟩
  · intro settings others henabled heq
    have hfirst : s.layer.OwnFirst ((Monitor.fresh settings.monitor).afterAll told) :=
      hlayer _ (heq ▸ (Layer.ownFirst_fresh henabled).registerAll others)
    have hlive := Monitor.contains_afterAll_iff settings.monitor told
    have hdead : ∀ {event}, ¬ Monitor.CreatedLast told event →
        ((Monitor.fresh settings.monitor).afterAll told).live.contains event = false := by
      intro event hnot
      rw [← Bool.not_eq_true, hlive]
      exact hnot
    refine ⟨_, hfirst.ownMonitor?, fun event hfree => hdead (h.not_live_of_free hfree), ?_, ?_⟩
    · intro name event hname
      rw [hlive, h.live_iff hname]
    · intro name
      refine ⟨s.takeHandle.1, hdead h.not_live_takeHandle, ?_, get?_createEvent⟩
      have heq : s.createEvent name = _ := s.step_eq (.createEvent name)
      rw [heq]
      exact (hfirst.deliver _).ownMonitor?

/-- An observer that objects to resets stops a run.  The name `b` was created in time, with the
handle of the event that was destroyed before, and is live; a handle was invented for `c`, which is
not. -/
theorem afterRuns_keeps_handles_apart_of_stopped_run :
    let layer : Layer Layer.Scribe := (Layer.fresh { enabled := true }).serveAll
      ([.guest ⟨"scribe", true, []⟩].map .register)
    let scenario : Scenario :=
      { name := "reuse"
        steps := [.createEvent "a", .destroyEvent "a", .createEvent "b", .resetEvent "c",
          .destroyEvent "b"] }
    let s := ({ layer } : Simulation Layer.Scribe).afterRuns [scenario]
    ∃ m, s.layer.ownMonitor? = some m ∧
      (s.handles.get? "b" = some ⟨0xe000⟩ ∧ m.live.contains ⟨0xe000⟩ = true) ∧
      s.handles.get? "c" = some ⟨0xe040⟩ ∧ m.live.contains ⟨0xe040⟩ = false := by
  intro layer scenario s
  have hfit : ({ layer } : Simulation Layer.Scribe).Fits
      (({ layer } : Simulation Layer.Scribe).mintsOverRuns [scenario]) := fits_of_names (by decide)
  obtain ⟨-, -, -, -, hmonitor⟩ := afterRuns_keeps_handles_apart layer [scenario] hfit
  obtain ⟨m, hm, -, hlive, -⟩ := hmonitor { enabled := true } [.guest ⟨"scribe", true, []⟩] rfl rfl
  have hb : s.handles.get? "b" = some ⟨0xe000⟩ := by decide +kernel
  have hc : s.handles.get? "c" = some ⟨0xe040⟩ := by decide +kernel
  refine ⟨m, hm, ⟨hb, (hlive "b" _ hb).2 (by decide +kernel)⟩, hc, ?_⟩
  rw [← Bool.not_eq_true, hlive "c" _ hc]
  decide +kernel

end Runs

end Simulation

end WaitFor
