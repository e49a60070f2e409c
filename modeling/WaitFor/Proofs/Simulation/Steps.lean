import WaitFor.Proofs.Layer.Dispatch
import WaitFor.Proofs.Monitor.Verdicts
import WaitFor.Proofs.Simulation.Handles

/-! # Steps of a simulation

A chronicle of names follows the steps of a scenario, and the layer's monitor follows a chronicle of
handles.  `Simulation.Mirrors` relates the two: the live generation of a name is that of its handle.
Handles that no name has any more may be live as well, but no step speaks of them.
-/

namespace WaitFor

/-! ## A layer with one monitor -/

namespace Layer

variable {κ : Type} [Observer κ] {l : Layer κ} {d : Chronicle EventHandle}

omit [Observer κ] in
/-- The layer's only observer is a deadlock monitor that agrees with the chronicle. -/
def Hosts (l : Layer κ) (d : Chronicle EventHandle) : Prop :=
  ∃ id name m, l.slots = [⟨id, name, .deadlock m⟩] ∧ m.Agrees d

/-- A layer that is set up with a monitor hosts one that was told nothing. -/
theorem hosts_fresh {settings : LayerSettings} (h : settings.enabled = true) :
    (fresh settings : Layer κ).Hosts {} := by
  rw [fresh, if_pos h]
  exact ⟨0, Monitor.registeredName, _, rfl, Monitor.agrees_fresh settings.monitor⟩

/-- A notice to the layer is one to its monitor. -/
theorem Hosts.deliver (h : l.Hosts d) (notice : Notice) :
    (l.deliver (some notice)).1.refusal? = (d.heed notice).1 ∧
      (l.deliver (some notice)).2.Hosts (d.heed notice).2 := by
  obtain ⟨id, name, m, hslots, hm⟩ := h
  obtain ⟨hverdict, hstate⟩ := Monitor.notify_agrees hm notice
  unfold Layer.deliver
  rw [hslots, ← hverdict]
  simp only [notifySlots, Observer.notify]
  cases (m.step notice).1 with
  | ok u => exact ⟨rfl, id, name, _, rfl, hstate⟩
  | error violation => exact ⟨rfl, id, name, _, rfl, hstate⟩

/-- A call that there is something to tell of is one notice to the monitor. -/
theorem Hosts.call {notice : Notice} (h : l.Hosts d) (call : Call)
    (hnotice : notice? (call, .success) = some notice) :
    (l.call call .success).1.refusal? = (d.heed notice).1 ∧
      (l.call call .success).2.Hosts (d.heed notice).2 := by
  rw [call_eq_deliver, hnotice]
  exact h.deliver notice

end Layer

namespace Simulation

variable {κ : Type} {s s' : Simulation κ} {c : Chronicle String} {d : Chronicle EventHandle}
  {name : String} {event : EventHandle} {n : Nat}

/-- What the chronicle of names tells of the events of a simulation, and that of handles of those in
its monitor. -/
structure Mirrors [Observer κ] (s : Simulation κ) (c : Chronicle String)
    (d : Chronicle EventHandle) : Prop where
  orderly : s.Orderly
  lt_of_live : ∀ {event}, (d.current event).isSome = true → event.bits < s.nextHandle
  current : ∀ name, c.current name = (s.handles.get? name).bind d.current
  started : d.started = c.started
  waits : d.waits = c.waits
  hosts : s.layer.Hosts d

namespace Mirrors

variable [Observer κ]

/-- At first a simulation mirrors the empty chronicle. -/
theorem fresh {settings : LayerSettings} (h : settings.enabled = true) :
    Mirrors ({ layer := .fresh settings } : Simulation κ) {} {} where
  orderly := .fresh (.fresh settings)
  lt_of_live := nofun
  current _ := rfl
  started := rfl
  waits := rfl
  hosts := Layer.hosts_fresh h

/-- The live generation of a name with a handle is that of the handle. -/
theorem current_eq (h : Mirrors s c d) (hname : s.handles.get? name = some event) :
    c.current name = d.current event := by
  rw [h.current, hname, Option.bind_some]

/-- Handles minted for names that had none are not live. -/
theorem extend (h : Mirrors s c d) (hord : s'.Orderly) (hext : Extends s s') : Mirrors s' c d where
  orderly := hord
  lt_of_live hlive := UInt64.lt_of_lt_of_le (h.lt_of_live hlive) hext.nextHandle
  current := by
    intro name
    rw [h.current]
    cases hname : s.handles.get? name with
    | some event => rw [hext.old hname]
    | none =>
      cases hname' : s'.handles.get? name with
      | none => rfl
      | some event =>
        have hdead : d.current event = none := by
          rw [← Option.not_isSome_iff_eq_none]
          intro hlive
          exact UInt64.not_lt.2 (hext.new hname hname') (h.lt_of_live hlive)
        exact hdead.symm
  started := h.started
  waits := h.waits
  hosts := hext.layer ▸ h.hosts

/-- Waits may be added to both chronicles, as long as no generation starts or ends. -/
theorem of_current {layer : Layer κ} {c' : Chronicle String} {d' : Chronicle EventHandle}
    (h : Mirrors s c d) (hc : c'.current = c.current) (hd : d'.current = d.current)
    (hstarted : d'.started = c'.started) (hwaits : d'.waits = c'.waits) (hhosts : layer.Hosts d') :
    Mirrors { s with layer } c' d' where
  orderly := h.orderly.of_eq rfl rfl rfl
  lt_of_live := by
    rw [hd]
    exact h.lt_of_live
  current := by
    rw [hc, hd]
    exact h.current
  started := hstarted
  waits := hwaits
  hosts := hhosts

/-- A name and its handle start a generation together. -/
theorem create (h : Mirrors s c d) (hord : s'.Orderly) (hname : s'.handles.get? name = some event)
    (hother : ∀ other, name ≠ other → s'.handles.get? other = s.handles.get? other)
    (hle : s.nextHandle ≤ s'.nextHandle) (hhosts : s'.layer.Hosts (d.create event)) :
    Mirrors s' (c.create name) (d.create event) where
  orderly := hord
  lt_of_live := by
    intro e hlive
    rw [Chronicle.current_create] at hlive
    split at hlive
    · next he => exact he ▸ hord.lt_of_named hname
    · exact UInt64.lt_of_lt_of_le (h.lt_of_live hlive) hle
  current := by
    intro other
    rw [Chronicle.current_create]
    split
    · next heq =>
      rw [← heq, hname, Option.bind_some, Chronicle.current_create, if_pos rfl, h.started]
    · next hne =>
      rw [h.current, ← hother other hne]
      cases he : s'.handles.get? other with
      | none => rfl
      | some e =>
        have hevent : event ≠ e := by
          rintro rfl
          exact hne (hord.inj hname he)
        rw [Option.bind_some, Option.bind_some, Chronicle.current_create, if_neg hevent]
  started := congrArg (· + 1) h.started
  waits := h.waits
  hosts := hhosts

/-- A name and its handle end their generation together, and the name goes. -/
theorem destroy (h : Mirrors s c d) (hord : s'.Orderly) (hname : s.handles.get? name = some event)
    (hother : ∀ other, s'.handles.get? other = if name = other then none else s.handles.get? other)
    (hnext : s'.nextHandle = s.nextHandle) (hhosts : s'.layer.Hosts (d.destroy event)) :
    Mirrors s' (c.destroy name) (d.destroy event) where
  orderly := hord
  lt_of_live := by
    intro e hlive
    rw [Chronicle.current_destroy] at hlive
    split at hlive
    · cases hlive
    · exact hnext ▸ h.lt_of_live hlive
  current := by
    intro other
    rw [Chronicle.current_destroy, hother]
    split
    · rfl
    · next hne =>
      rw [h.current]
      cases he : s.handles.get? other with
      | none => rfl
      | some e =>
        have hevent : event ≠ e := by
          rintro rfl
          exact hne (h.orderly.inj hname he)
        rw [Option.bind_some, Option.bind_some, Chronicle.current_destroy, if_neg hevent]
  started := h.started
  waits := h.waits
  hosts := hhosts

/-- A name without a handle is not live, and its destruction changes nothing. -/
theorem destroy_of_unnamed (h : Mirrors s c d) (hname : s.handles.get? name = none) :
    Mirrors s (c.destroy name) d := by
  refine { h with current := fun other => ?_ }
  rw [Chronicle.current_destroy]
  split
  · next heq => rw [← heq, hname, Option.bind_none]
  · exact h.current other

/-- The chronicle of handles under the names of the handles. -/
theorem renames (h : Mirrors s c d) {names : List String}
    (hnames : ∀ name ∈ names, s.handles.get? name = some (s.handle name)) :
    Chronicle.Renames s.handle names c d where
  current name hm := (h.current_eq (hnames name hm)).symm
  injOn name hm other hm' heq := h.orderly.inj (hnames name hm) (heq ▸ hnames other hm')
  started := h.started
  waits := h.waits

end Mirrors

/-! ## Steps -/

/-- How many handles a step mints. -/
def mints (s : Simulation κ) : Step → Nat
  | .createEvent _ => s.mintsToCreate
  | .destroyEvent _ => 0
  | .resetEvent name => s.mintsFor [name]
  | .append _ signal waits => s.mintsFor (signal.toList ++ waits)

/-- Handing out a handle touches neither the layer nor the names. -/
theorem takeHandle_fields (s : Simulation κ) :
    s.takeHandle.2.layer = s.layer ∧ s.takeHandle.2.handles = s.handles := by
  unfold takeHandle
  split
  · exact ⟨rfl, rfl⟩
  · exact ⟨rfl, rfl⟩

variable [Observer κ]

/-- The creation of an event never fails. -/
theorem createEvent_mirrors (h : Mirrors s c d) (name : String)
    (hfit : s.Fits (s.mintsToCreate + n)) :
    (s.createEvent name).1 = .ok () ∧ (s.createEvent name).2.Fits n ∧
      ∃ d, Mirrors (s.createEvent name).2 (c.create name) d := by
  let s₁ : Simulation κ := { s with nextIndex := s.nextIndex + 1 }
  obtain ⟨event, t, ht⟩ : ∃ event t, s₁.takeHandle = (event, t) := ⟨_, _, rfl⟩
  have hord : s₁.Orderly := h.orderly.of_eq rfl rfl rfl
  obtain ⟨hord, hunused, hfit, hle⟩ := hord.takeHandle (n := n) hfit
  obtain ⟨hlayer, hhandles⟩ := takeHandle_fields s₁
  rw [ht] at hord hunused hfit hle hlayer hhandles
  have hhosts : t.layer.Hosts d := hlayer ▸ h.hosts
  obtain ⟨hverdict, hhosts⟩ := hhosts.deliver (.created event)
  have hok : (t.layer.deliver (some (.created event))).1 = .ok () :=
    Verdict.refusal?_eq_none.1 hverdict
  have hcreate : s.createEvent name = (.ok (),
      { t with layer := (t.layer.deliver (some (.created event))).2,
               handles := t.handles.insert name event }) := by
    have hafter : t.layer.afterCall (.eventCreate pool s.nextIndex) (.created event) =
        (.ok (), (t.layer.deliver (some (.created event))).2) := Prod.ext hok rfl
    have hbefore : s.layer.beforeCall (.eventCreate pool s.nextIndex) = (.ok (), s.layer) := rfl
    unfold createEvent
    simp only [hbefore]
    rw [ht]
    simp only [hafter]
  rw [hcreate]
  refine ⟨rfl, hfit, d.create event, ?_⟩
  refine h.create ((hord.insert hunused name).of_eq rfl rfl rfl) ?_ ?_ hle hhosts
  · exact (Table.get?_insert ..).trans (if_pos rfl)
  · intro other hne
    refine (Table.get?_insert ..).trans ?_
    rw [if_neg hne, hhandles]

/-- The destruction of an event never fails. -/
theorem destroyEvent_mirrors (h : Mirrors s c d) (name : String) :
    (s.destroyEvent name).1 = .ok () ∧ (s.destroyEvent name).2.nextHandle = s.nextHandle ∧
      ∃ d, Mirrors (s.destroyEvent name).2 (c.destroy name) d := by
  unfold destroyEvent
  cases hname : s.handles.get? name with
  | none => exact ⟨rfl, rfl, d, h.destroy_of_unnamed hname⟩
  | some event =>
    obtain ⟨hverdict, hhosts⟩ := h.hosts.call (.eventDestroy event) rfl
    have hok : s.layer.call (.eventDestroy event) .success =
        (.ok (), (s.layer.call (.eventDestroy event) .success).2) :=
      Prod.ext (Verdict.refusal?_eq_none.1 hverdict) rfl
    simp only [call]
    rw [hok]
    refine ⟨rfl, rfl, d.destroy event, ?_⟩
    refine h.destroy ((h.orderly.free hname).of_eq rfl rfl rfl) hname ?_ rfl hhosts
    intro other
    exact Table.get?_erase s.handles name other

/-- A reset never fails. -/
theorem resetEvent_mirrors (h : Mirrors s c d) (name : String)
    (hfit : s.Fits (s.mintsFor [name] + n)) :
    (s.resetEvent name).1 = .ok () ∧ (s.resetEvent name).2.Fits n ∧
      ∃ d, Mirrors (s.resetEvent name).2 (c.reset name) d := by
  obtain ⟨hord, hext, hfit, hname⟩ := h.orderly.handleOf hfit
  have h := h.extend hord hext
  obtain ⟨event, t, ht⟩ : ∃ event t, s.handleOf name = (event, t) := ⟨_, _, rfl⟩
  have hreset : s.resetEvent name = t.call (.eventHostReset event) := by
    unfold resetEvent
    rw [ht]
  rw [ht] at hord hfit hname h
  obtain ⟨hverdict, hhosts⟩ := h.hosts.call (.eventHostReset event) rfl
  rw [hreset]
  refine ⟨Verdict.refusal?_eq_none.1 hverdict, hfit, d.reset event, ?_⟩
  have hhosts : (t.layer.call (.eventHostReset event) .success).2.Hosts (d.reset event) := hhosts
  unfold Chronicle.reset at hhosts ⊢
  rw [h.current_eq hname]
  split
  · next hlive =>
    rw [if_pos hlive] at hhosts
    exact h.create (hord.of_eq rfl rfl rfl) hname (fun _ _ => rfl) (UInt64.le_refl _) hhosts
  · next hdead =>
    rw [if_neg hdead] at hhosts
    exact h.of_current rfl rfl h.started h.waits hhosts

omit [Observer κ] in
/-- The names of an append are resolved together. -/
theorem handlesOf_append {signal : Option String} {waits : List String} {f : String → EventHandle}
    (h : (s.handlesOf (signal.toList ++ waits)).1 = (signal.toList ++ waits).map f) :
    (s.optionalHandle signal).1 = signal.map f ∧
      (s.optionalHandle signal).2.handlesOf waits =
        (waits.map f, (s.handlesOf (signal.toList ++ waits)).2) := by
  cases signal with
  | none => exact ⟨rfl, Prod.ext h rfl⟩
  | some name =>
    rw [Option.toList_some, List.singleton_append, handlesOf_cons, List.map_cons,
      List.cons.injEq] at h
    exact ⟨congrArg some h.1, Prod.ext h.2 rfl⟩

/-- An append is answered as in the chronicle, with the handle of the name to blame. -/
theorem append_mirrors {operation : Operation} {signal : Option String} {waits : List String}
    (h : Mirrors s c d) (hfit : s.Fits (s.mintsFor (signal.toList ++ waits) + n)) :
    (s.append operation signal waits).1.refusal?.map (Refusal.map some) =
        (c.append signal waits).1.map
          (Refusal.map (s.append operation signal waits).2.handles.get?) ∧
      (s.append operation signal waits).2.Fits n ∧
      ∃ d, Mirrors (s.append operation signal waits).2 (c.append signal waits).2 d := by
  obtain ⟨hord, hext, hfit, hall, hnames⟩ := h.orderly.handlesOf hfit
  have h := h.extend hord hext
  obtain ⟨hsignal, hwaits⟩ := handlesOf_append hall
  obtain ⟨events, t, ht⟩ : ∃ events t, s.handlesOf (signal.toList ++ waits) = (events, t) :=
    ⟨_, _, rfl⟩
  rw [ht] at hord hfit hnames h hsignal hwaits
  have hren := h.renames hnames
  obtain ⟨hrefusal, hren'⟩ :=
    hren.append (List.subset_append_left ..) (List.subset_append_right _ waits)
  have happend : s.append operation signal waits = t.call (.append
      { commandList, operation, signal := signal.map t.handle, waits := waits.map t.handle }) := by
    unfold append
    simp only [hsignal, hwaits]
  obtain ⟨hverdict, hhosts⟩ := h.hosts.call (.append
    { commandList, operation, signal := signal.map t.handle, waits := waits.map t.handle }) rfl
  rw [happend]
  refine ⟨?_, hfit, (d.append (signal.map t.handle) (waits.map t.handle)).2, ?_⟩
  · refine (congrArg _ (hverdict.trans hrefusal)).trans ?_
    cases hblame : (c.append signal waits).1 with
    | none => rfl
    | some refusal =>
      have hkey := hnames refusal.key (Chronicle.key_mem_of_append hblame)
      exact congrArg some (Refusal.map_some_map hkey)
  · exact h.of_current (Chronicle.append_fields ..).1 (Chronicle.append_fields ..).1 hren'.started
      hren'.waits hhosts

end Simulation

end WaitFor
