import Mathlib.Data.List.Nodup
import WaitFor.Proofs.Layer.Dispatch
import WaitFor.Proofs.Monitor.Verdicts

/-! # Registration of observers

A layer knows its own deadlock monitor twice: as one of the observers, and by itself.  Whatever a
layer is asked to do, the two agree.  As long as the monitor is registered it is the first of the
observers (`Layer.OwnFirst`), so it is told everything; once it is removed the layer does not know
it any more (`own_serve_of_none`), even if another monitor takes the name. -/

namespace WaitFor.Layer

variable {κ : Type} [Observer κ] {l : Layer κ} {m : Monitor} {o : Hosted κ} {name : String}
  {names : List String}

/-- What a layer can be asked to do: register or remove observers, or dispatch a call to them before
or after the runtime executes it. -/
inductive Request (κ : Type) where
  | register (observer : Hosted κ)
  | deregister (name : String)
  | shutdown
  | beforeCall (call : Call)
  | afterCall (call : Call) (outcome : Outcome)

/-- What a request tells the observers. -/
def Request.notice? : Request κ → Option Notice
  | beforeCall call => noticeBefore? call
  | afterCall call outcome => noticeAfter? call outcome
  | _ => none

/-- The registered names after a request, if `names` were registered before. -/
def Request.roster (names : List String) : Request κ → List String
  | register observer =>
    if Observer.name observer ∈ names then names else names ++ [Observer.name observer]
  | deregister name => names.erase name
  | shutdown => []
  | beforeCall _ => names
  | afterCall .. => names

/-- Serves a request. -/
def serve (l : Layer κ) : Request κ → Layer κ
  | .register observer => (l.register observer).2
  | .deregister name => (l.deregister name).2
  | .shutdown => l.shutdown
  | .beforeCall call => (l.beforeCall call).2
  | .afterCall call outcome => (l.afterCall call outcome).2

/-- Serves requests in order. -/
def serveAll (l : Layer κ) (requests : List (Request κ)) : Layer κ := requests.foldl serve l

/-! ## Names -/

omit [Observer κ] in
/-- The active names are those that are registered. -/
theorem isActive_iff : l.isActive name = true ↔ name ∈ l.names := List.contains_iff_mem

/-- A taken name is not registered again. -/
theorem register_of_mem (h : Observer.name o ∈ l.names) : l.register o = (false, l) := by
  rw [register, if_pos (isActive_iff.2 h)]

/-- An observer with a new name is registered last. -/
theorem register_of_not_mem (h : Observer.name o ∉ l.names) :
    l.register o = (true, { l with
      slots := l.slots ++ [⟨l.nextId, Observer.name o, o⟩], nextId := l.nextId + 1 }) := by
  rw [register, if_neg fun hactive => h (isActive_iff.1 hactive)]

omit [Observer κ] in
/-- A name that is deregistered is taken out, and the others keep their order. -/
theorem names_deregister (h : l.names.Nodup) (name : String) :
    (l.deregister name).2.names = l.names.erase name := by
  rw [h.erase_eq_filter, names, names, List.filter_map]
  refine congrArg (List.map Slot.name) (List.filter_congr fun slot _ => ?_)
  by_cases hname : slot.name = name
  · simp [hname]
  · simp [hname]

omit [Observer κ] in
/-- Removing observers one by one leaves those with other names. -/
theorem foldl_deregister (l : Layer κ) (names : List String) :
    let l' := names.foldl (fun l name => (l.deregister name).2) l
    l'.slots = l.slots.filter (fun slot => slot.name ∉ names) ∧
      l'.own = if Monitor.registeredName ∈ names then none else l.own := by
  induction names generalizing l with
  | nil => exact ⟨(List.filter_eq_self.2 fun _ _ => by simp).symm, rfl⟩
  | cons name names ih =>
    obtain ⟨hslots, hown⟩ := ih (l.deregister name).2
    refine ⟨hslots.trans ?_, hown.trans ?_⟩
    · rw [deregister, List.filter_filter]
      exact List.filter_congr fun slot _ => by simp [Bool.and_comm]
    · rw [deregister]
      by_cases hname : name = Monitor.registeredName
      · simp [hname]
      · simp [hname, Ne.symm hname]

omit [Observer κ] in
/-- After a shutdown nobody is registered. -/
theorem slots_shutdown (l : Layer κ) : l.shutdown.slots = [] := by
  rw [shutdown, (l.foldl_deregister l.names).1, List.filter_eq_nil_iff]
  intro slot hslot
  have hname : slot.name ∈ l.names := List.mem_map_of_mem hslot
  simpa using hname

/-- Slots keep their names and ids, whatever the observers are told. -/
theorem map_notifySlots {α : Type} {f : Slot κ → α}
    (hf : ∀ slot observer, f { slot with observer } = f slot) (notice : Notice)
    (slots : List (Slot κ)) : (notifySlots notice slots).state.map f = slots.map f := by
  induction slots with
  | nil => rfl
  | cons slot slots ih =>
    rw [notifySlots]
    split
    · rw [List.map_cons, List.map_cons, hf]
    · rw [List.map_cons, List.map_cons, hf, ih]

/-- Notices leave the registered names as they are. -/
theorem names_deliver (l : Layer κ) (notice? : Option Notice) :
    (l.deliver notice?).2.names = l.names := by
  cases notice? with
  | none => rfl
  | some notice => exact map_notifySlots (fun _ _ => rfl) notice l.slots

/-- A request leaves the names on the roster. -/
theorem names_serve (h : l.names.Nodup) (request : Request κ) :
    (l.serve request).names = request.roster l.names := by
  cases request with
  | register observer =>
    rw [serve, Request.roster]
    split
    · next hmem => rw [register_of_mem hmem]
    · next hmem =>
      rw [register_of_not_mem hmem, names, List.map_append]
      rfl
  | deregister name => exact names_deregister h name
  | shutdown => exact congrArg (List.map Slot.name) l.slots_shutdown
  | beforeCall call => exact l.names_deliver _
  | afterCall call outcome => exact l.names_deliver _

/-- No request puts a name on the roster twice. -/
theorem Request.nodup_roster (h : names.Nodup) (request : Request κ) :
    (request.roster names).Nodup := by
  cases request with
  | register observer =>
    rw [roster]
    split
    · exact h
    · next hmem => exact List.concat_eq_append ▸ h.concat hmem
  | deregister name => exact h.erase name
  | shutdown => exact List.nodup_nil
  | beforeCall _ => exact h
  | afterCall _ _ => exact h

/-- The registered names are distinct, and those that the requests leave. -/
theorem names_serveAll (h : l.names.Nodup) (requests : List (Request κ)) :
    (l.serveAll requests).names.Nodup ∧
      (l.serveAll requests).names = requests.foldl Request.roster l.names := by
  induction requests generalizing l with
  | nil => exact ⟨h, rfl⟩
  | cons request requests ih =>
    have hnames := names_serve h request
    obtain ⟨hnodup, hfold⟩ := ih (hnames ▸ Request.nodup_roster h request)
    refine ⟨hnodup, hfold.trans ?_⟩
    rw [hnames, List.foldl_cons]

/-! ## Ids -/

/-- The ids of the slots are distinct, and the next one is new. -/
def Numbered (l : Layer κ) : Prop :=
  (l.slots.map Slot.id).Nodup ∧ ∀ id ∈ l.slots.map Slot.id, id < l.nextId

namespace Numbered

/-- A new slot takes a new id. -/
theorem register (h : l.Numbered) (o : Hosted κ) : (l.register o).2.Numbered := by
  by_cases hmem : Observer.name o ∈ l.names
  · rw [register_of_mem hmem]
    exact h
  · obtain ⟨hnodup, hlt⟩ := h
    rw [register_of_not_mem hmem, Numbered, List.map_append, List.map_singleton]
    refine ⟨?_, fun id hid => ?_⟩
    · rw [← List.concat_eq_append]
      exact hnodup.concat fun hid => Nat.lt_irrefl _ (hlt _ hid)
    · rcases List.mem_append.1 hid with hid | hid
      · exact Nat.lt_succ_of_lt (hlt id hid)
      · exact List.mem_singleton.1 hid ▸ Nat.lt_succ_self _

omit [Observer κ] in
/-- The slots that stay keep their ids. -/
theorem deregister (h : l.Numbered) (name : String) : (l.deregister name).2.Numbered := by
  have hsub : (l.deregister name).2.slots.Sublist l.slots := List.filter_sublist
  exact ⟨h.1.sublist (hsub.map _), fun id hid => h.2 id ((hsub.map _).subset hid)⟩

/-- Notices leave the ids as they are. -/
theorem deliver (h : l.Numbered) (notice? : Option Notice) : (l.deliver notice?).2.Numbered := by
  cases notice? with
  | none => exact h
  | some notice =>
    have hids : (l.deliver (some notice)).2.slots.map Slot.id = l.slots.map Slot.id :=
      map_notifySlots (fun _ _ => rfl) notice l.slots
    rw [Numbered, hids]
    exact h

/-- A request leaves the ids distinct. -/
theorem serve (h : l.Numbered) (request : Request κ) : (l.serve request).Numbered := by
  cases request with
  | register observer => exact h.register observer
  | deregister name => exact h.deregister name
  | shutdown =>
    rw [Layer.serve, Numbered, slots_shutdown]
    exact ⟨List.nodup_nil, List.forall_mem_nil _⟩
  | beforeCall call => exact h.deliver _
  | afterCall call outcome => exact h.deliver _

/-- No two slots of a layer have the same id, whatever it was asked to do. -/
theorem serveAll (h : l.Numbered) (requests : List (Request κ)) :
    (l.serveAll requests).Numbered := by
  induction requests generalizing l with
  | nil => exact h
  | cons request requests ih => exact ih (h.serve request)

end Numbered

/-! ## The layer's own monitor -/

omit [Observer κ] in
/-- The layer's own monitor is registered, before all other observers, in the state `m`. -/
def OwnFirst (l : Layer κ) (m : Monitor) : Prop :=
  ∃ id rest, l.slots = ⟨id, Monitor.registeredName, .deadlock m⟩ :: rest ∧ l.own = some ⟨id, m⟩

namespace OwnFirst

omit [Observer κ] in
/-- The layer knows the monitor that stands first. -/
theorem ownMonitor? (h : l.OwnFirst m) : l.ownMonitor? = some m := by
  obtain ⟨id, rest, -, hown⟩ := h
  rw [Layer.ownMonitor?, hown]
  rfl

omit [Observer κ] in
/-- The layer's own monitor has its name registered. -/
theorem mem_names (h : l.OwnFirst m) : Monitor.registeredName ∈ l.names := by
  obtain ⟨id, rest, hslots, -⟩ := h
  rw [names, hslots]
  exact List.mem_cons_self

omit [Observer κ] in
/-- The layer's own monitor shares neither its name nor its id with another observer. -/
theorem exists_slot (h : l.OwnFirst m) (hnames : l.names.Nodup) (hids : l.Numbered) :
    ∃ slot rest, l.slots = slot :: rest ∧ l.own = some ⟨slot.id, m⟩ ∧
      slot.name = Monitor.registeredName ∧ slot.observer = .deadlock m ∧
      ∀ other ∈ rest, other.name ≠ Monitor.registeredName ∧ other.id ≠ slot.id := by
  obtain ⟨id, rest, hslots, hown⟩ := h
  obtain ⟨hid, -⟩ := hids
  rw [hslots, List.map_cons, List.nodup_cons] at hid
  rw [names, hslots, List.map_cons, List.nodup_cons] at hnames
  refine ⟨_, rest, hslots, hown, rfl, rfl, fun other hother => ⟨fun heq => ?_, fun heq => ?_⟩⟩
  · exact hnames.1 (List.mem_map.2 ⟨other, hother, heq⟩)
  · exact hid.1 (List.mem_map.2 ⟨other, hother, heq⟩)

/-- A new observer stands behind the layer's own monitor. -/
theorem register (h : l.OwnFirst m) (o : Hosted κ) : (l.register o).2.OwnFirst m := by
  by_cases hmem : Observer.name o ∈ l.names
  · rw [register_of_mem hmem]
    exact h
  · obtain ⟨id, rest, hslots, hown⟩ := h
    rw [register_of_not_mem hmem]
    exact ⟨id, _, congrArg (· ++ _) hslots, hown⟩

/-- New observers stand behind the layer's own monitor. -/
theorem registerAll (h : l.OwnFirst m) (observers : List (Hosted κ)) :
    (l.serveAll (observers.map .register)).OwnFirst m := by
  induction observers generalizing l with
  | nil => exact h
  | cons observer observers ih => exact ih (h.register observer)

omit [Observer κ] in
/-- The layer's own monitor stays first when another name is removed. -/
theorem deregister (h : l.OwnFirst m) (hname : name ≠ Monitor.registeredName) :
    (l.deregister name).2.OwnFirst m := by
  obtain ⟨id, rest, hslots, hown⟩ := h
  rw [Layer.deregister, hslots, List.filter_cons_of_pos (by simpa using Ne.symm hname)]
  exact ⟨id, _, rfl, (if_neg hname).trans hown⟩

omit [Observer κ] in
/-- A shutdown takes the layer's own monitor as well. -/
theorem own_shutdown (h : l.OwnFirst m) : l.shutdown.own = none := by
  rw [shutdown, (l.foldl_deregister l.names).2, if_pos h.mem_names]

omit [Observer κ] in
/-- The layer's own monitor is the one that its slot has come to. -/
theorem of_advance {id : Nat} (hown : l.own = some ⟨id, m⟩) (m' : Monitor) (rest : List (Slot κ))
    (reports : List Violation) :
    (l.advance (⟨id, Monitor.registeredName, .deadlock m'⟩ :: rest) reports).OwnFirst m' := by
  refine ⟨id, rest, rfl, ?_⟩
  rw [advance, hown, Option.map_some, OwnMonitor.follow, List.find?_cons_of_pos (by simp)]
  rfl

/-- The first observer is told everything. -/
theorem deliver (h : l.OwnFirst m) (notice? : Option Notice) :
    (l.deliver notice?).2.OwnFirst (m.afterAll notice?.toList) := by
  obtain ⟨id, rest, hslots, hown⟩ := h
  cases notice? with
  | none => exact ⟨id, rest, hslots, hown⟩
  | some notice =>
    rw [Layer.deliver, hslots, notifySlots]
    split
    · exact of_advance hown _ _ _
    · exact of_advance hown _ _ _

/-- The monitor stays the first of the observers until it is removed. -/
theorem serve (h : l.OwnFirst m) {request : Request κ}
    (hname : request ≠ .deregister Monitor.registeredName) (hshutdown : request ≠ .shutdown) :
    (l.serve request).OwnFirst (m.afterAll request.notice?.toList) := by
  cases request with
  | register observer => exact h.register observer
  | deregister name => exact h.deregister fun heq => hname (congrArg Request.deregister heq)
  | shutdown => exact absurd rfl hshutdown
  | beforeCall call => exact h.deliver _
  | afterCall call outcome => exact h.deliver _

/-- The monitor is told everything as long as it is not removed. -/
theorem serveAll (h : l.OwnFirst m) {requests : List (Request κ)}
    (hname : .deregister Monitor.registeredName ∉ requests) (hshutdown : .shutdown ∉ requests) :
    (l.serveAll requests).OwnFirst (m.afterAll (requests.filterMap Request.notice?)) := by
  induction requests generalizing l m with
  | nil => exact h
  | cons request requests ih =>
    rw [List.mem_cons, not_or] at hname hshutdown
    have hstep := h.serve (Ne.symm hname.1) (Ne.symm hshutdown.1)
    have htold : (request :: requests).filterMap Request.notice? =
        request.notice?.toList ++ requests.filterMap Request.notice? := by
      cases hnotice : request.notice? with
      | none => rw [List.filterMap_cons_none hnotice, Option.toList_none, List.nil_append]
      | some notice =>
        rw [List.filterMap_cons_some hnotice, Option.toList_some, List.singleton_append]
    rw [htold, Monitor.afterAll_append]
    exact ih hstep hname.2 hshutdown.2

end OwnFirst

omit [Observer κ] in
theorem ownMonitor?_of_own_eq_none (h : l.own = none) : l.ownMonitor? = none := by
  rw [ownMonitor?, h]
  rfl

omit [Observer κ] in
/-- Where there is no monitor of its own, none comes with a removal. -/
theorem own_deregister_of_none (h : l.own = none) (name : String) :
    (l.deregister name).2.own = none := by
  rw [deregister, h, ite_self]

/-- Where there is no monitor of its own, none comes with a notice. -/
theorem own_deliver_of_none (h : l.own = none) (notice? : Option Notice) :
    (l.deliver notice?).2.own = none := by
  cases notice? with
  | none => exact h
  | some notice => rw [deliver, advance, h, Option.map_none]

/-- A layer without a monitor of its own never gets one. -/
theorem own_serve_of_none (h : l.own = none) (request : Request κ) :
    (l.serve request).own = none := by
  cases request with
  | register observer =>
    rw [serve, register]
    split
    · exact h
    · exact h
  | deregister name => exact own_deregister_of_none h name
  | shutdown =>
    rw [serve, shutdown, (l.foldl_deregister l.names).2, h, ite_self]
  | beforeCall call => exact own_deliver_of_none h _
  | afterCall call outcome => exact own_deliver_of_none h _

/-- A layer without a monitor of its own is without one for good. -/
theorem own_serveAll_of_none (h : l.own = none) (requests : List (Request κ)) :
    (l.serveAll requests).own = none := by
  induction requests generalizing l with
  | nil => exact h
  | cons request requests ih => exact ih (own_serve_of_none h request)

/-- Once its own monitor was removed, a layer is without one. -/
theorem OwnFirst.own_serveAll (h : l.OwnFirst m) {requests : List (Request κ)}
    (hremoved : .deregister Monitor.registeredName ∈ requests ∨ .shutdown ∈ requests) :
    (l.serveAll requests).own = none := by
  induction requests generalizing l m with
  | nil => exact hremoved.elim nofun nofun
  | cons request requests ih =>
    by_cases hname : request = .deregister Monitor.registeredName
    · refine own_serveAll_of_none ?_ requests
      rw [hname, Layer.serve, Layer.deregister, if_pos rfl]
    · by_cases hshutdown : request = .shutdown
      · refine own_serveAll_of_none ?_ requests
        rw [hshutdown]
        exact h.own_shutdown
      · refine ih (h.serve hname hshutdown) ?_
        exact hremoved.imp (fun hmem => List.mem_of_ne_of_mem (Ne.symm hname) hmem)
          (fun hmem => List.mem_of_ne_of_mem (Ne.symm hshutdown) hmem)

/-! ## Runs of requests -/

/-- What registering and removing observers does to a layer: a name that is taken is refused, a new
one comes last; a name that nobody has is not removed, and with a name goes the one observer that
has it. -/
structure Registers (l : Layer κ) : Prop where
  register_taken : ∀ o, Observer.name o ∈ l.names → l.register o = (false, l)
  register_new : ∀ o, Observer.name o ∉ l.names → l.register o = (true, { l with
    slots := l.slots ++ [⟨l.nextId, Observer.name o, o⟩], nextId := l.nextId + 1 })
  deregister_absent : ∀ name, name ∉ l.names → l.deregister name = (false, l)
  deregister_present : ∀ before slot after, l.slots = before ++ slot :: after →
    (l.deregister slot.name).1 = true ∧ (l.deregister slot.name).2.slots = before ++ after
  shutdown : l.shutdown.slots = []

omit [Observer κ] in
/-- A slot that has its name alone goes alone. -/
theorem slots_deregister {before after : List (Slot κ)} {slot : Slot κ} (h : l.names.Nodup)
    (hslots : l.slots = before ++ slot :: after) :
    (l.deregister slot.name).2.slots = before ++ after := by
  rw [names, hslots, List.map_append, List.map_cons] at h
  obtain ⟨-, hafter, hbefore⟩ := List.nodup_append.1 h
  have hkeep : ∀ {slots : List (Slot κ)}, (∀ other ∈ slots, other.name ≠ slot.name) →
      slots.filter (fun other => other.name ≠ slot.name) = slots :=
    fun hne => List.filter_eq_self.2 fun other hother => decide_eq_true (hne other hother)
  rw [deregister, hslots, List.filter_append, List.filter_cons_of_neg (by simp), hkeep, hkeep]
  · intro other hother heq
    exact (List.nodup_cons.1 hafter).1 (heq ▸ List.mem_map_of_mem hother)
  · intro other hother heq
    exact hbefore _ (List.mem_map_of_mem hother) _ List.mem_cons_self heq

/-- Where no name is registered twice, observers are registered and removed as they should be. -/
theorem registers (h : l.names.Nodup) (hown : l.own ≠ none → Monitor.registeredName ∈ l.names) :
    l.Registers where
  register_taken _ := register_of_mem
  register_new _ := register_of_not_mem
  deregister_absent name hname := by
    have hslots : l.slots.filter (fun slot => slot.name ≠ name) = l.slots := by
      refine List.filter_eq_self.2 fun slot hslot => decide_eq_true fun heq => ?_
      exact hname (heq ▸ List.mem_map_of_mem hslot)
    have hactive : l.isActive name = false := by
      rw [← Bool.not_eq_true, isActive_iff]
      exact hname
    rw [deregister, hslots, hactive]
    split
    · next heq =>
      have hnone : l.own = none := by
        by_contra hsome
        exact hname (heq ▸ hown hsome)
      rw [← hnone]
    · rfl
  deregister_present before slot after hslots := by
    refine ⟨isActive_iff.2 ?_, slots_deregister h hslots⟩
    rw [names, hslots, List.map_append, List.map_cons]
    exact List.mem_append_right _ List.mem_cons_self
  shutdown := l.slots_shutdown

/-- The names that are registered in a layer with these settings from the start. -/
def firstNames (settings : LayerSettings) : List String :=
  if settings.enabled then [Monitor.registeredName] else []

/-- At first the only name is that of the monitor, if the settings ask for one. -/
theorem names_fresh (settings : LayerSettings) :
    (fresh settings : Layer κ).names = firstNames settings := by
  rw [fresh, firstNames]
  split
  · rfl
  · rfl

theorem nodup_firstNames (settings : LayerSettings) : (firstNames settings).Nodup := by
  rw [firstNames]
  split
  · exact List.nodup_singleton _
  · exact List.nodup_nil

/-- A layer starts out with distinct ids. -/
theorem numbered_fresh (settings : LayerSettings) : (fresh settings : Layer κ).Numbered := by
  have hempty : (Layer.empty : Layer κ).Numbered := ⟨List.nodup_nil, List.forall_mem_nil _⟩
  rw [fresh]
  split
  · exact hempty.register _
  · exact hempty

/-- A layer that is set up with a monitor has it first. -/
theorem ownFirst_fresh {settings : LayerSettings} (h : settings.enabled = true) :
    (fresh settings : Layer κ).OwnFirst (.fresh settings.monitor) := by
  rw [fresh, if_pos h]
  exact ⟨0, [], rfl, rfl⟩

/-- After requests, a layer has a monitor of its own exactly if its settings asked for one and no
request removed it; that monitor was told all that there was to tell. -/
theorem own_of_serveAll (settings : LayerSettings) (requests : List (Request κ)) :
    let l := (fresh settings : Layer κ).serveAll requests
    let stays := settings.enabled = true ∧ .deregister Monitor.registeredName ∉ requests ∧
      .shutdown ∉ requests
    (stays → l.OwnFirst
      ((Monitor.fresh settings.monitor).afterAll (requests.filterMap Request.notice?))) ∧
    (¬ stays → l.own = none) := by
  refine ⟨fun ⟨henabled, hname, hshutdown⟩ => ?_, fun hno => ?_⟩
  · exact (ownFirst_fresh henabled).serveAll hname hshutdown
  · by_cases henabled : settings.enabled = true
    · refine (ownFirst_fresh henabled).own_serveAll ?_
      by_contra hnone
      rw [not_or] at hnone
      exact hno ⟨henabled, hnone⟩
    · refine own_serveAll_of_none ?_ requests
      rw [fresh, if_neg henabled]
      rfl

/-- Whatever a layer was asked to do since it was set up, the names of its observers are distinct
and in the order of their registration, and observers are registered and removed as `Registers`
says. The layer knows its own monitor exactly if its settings asked for one and nothing has removed
it since.  This is the monitor that it was set up with: the slot that stands first, and no other
one, has its name and its id, so it is told everything. -/
theorem registration_follows_requests (settings : LayerSettings) (requests : List (Request κ)) :
    let l := (fresh settings : Layer κ).serveAll requests
    l.names.Nodup ∧ l.names = requests.foldl Request.roster (firstNames settings) ∧ l.Registers ∧
    (l.ownMonitor?.isSome = true ↔ settings.enabled = true ∧
      .deregister Monitor.registeredName ∉ requests ∧ .shutdown ∉ requests) ∧
    ∀ m, l.ownMonitor? = some m →
      m = (Monitor.fresh settings.monitor).afterAll (requests.filterMap Request.notice?) ∧
      (∃ slot rest, l.slots = slot :: rest ∧ l.own = some ⟨slot.id, m⟩ ∧
        slot.name = Monitor.registeredName ∧ slot.observer = .deadlock m ∧
        ∀ other ∈ rest, other.name ≠ Monitor.registeredName ∧ other.id ≠ slot.id) ∧
      ∀ notice, (l.deliver (some notice)).2.ownMonitor? =
        some (Observer.notify m notice).state := by
  intro l
  have hnodup : (fresh settings : Layer κ).names.Nodup := by
    rw [names_fresh]
    exact nodup_firstNames settings
  obtain ⟨hnames, hroster⟩ := names_serveAll hnodup requests
  rw [names_fresh] at hroster
  obtain ⟨hstays, hgone⟩ := own_of_serveAll (κ := κ) settings requests
  have hasked : l.ownMonitor?.isSome = true → settings.enabled = true ∧
      .deregister Monitor.registeredName ∉ requests ∧ .shutdown ∉ requests := by
    intro hsome
    by_contra hno
    rw [ownMonitor?_of_own_eq_none (hgone hno)] at hsome
    cases hsome
  refine ⟨hnames, hroster, registers hnames fun hsome => ?_, ⟨hasked, fun h => ?_⟩,
    fun m hm => ?_⟩
  · exact (hstays (by_contra fun hno => hsome (hgone hno))).mem_names
  · rw [(hstays h).ownMonitor?]
    rfl
  · have hown := hstays (hasked (Option.isSome_of_eq_some hm))
    have heq := Option.some.inj (hm.symm.trans hown.ownMonitor?)
    rw [← heq] at hown
    exact ⟨heq, hown.exists_slot hnames ((numbered_fresh settings).serveAll requests),
      fun notice => (hown.deliver (some notice)).ownMonitor?⟩

/-- A scribe under the name of the deadlock monitor: registered beside the monitor it is refused,
and the layer keeps its own; registered after the monitor was removed it takes the name, and the
layer has no monitor of its own. -/
theorem registration_follows_requests_of_impostor :
    let impostor : Request Scribe := .register (.guest ⟨Monitor.registeredName, false, []⟩)
    let beside := (fresh { enabled := true } : Layer Scribe).serveAll [impostor]
    let instead := (fresh { enabled := true } : Layer Scribe).serveAll
      [.deregister Monitor.registeredName, impostor]
    (beside.names = [Monitor.registeredName] ∧ beside.ownMonitor?.isSome = true) ∧
      instead.names = [Monitor.registeredName] ∧ instead.ownMonitor?.isSome = false := by
  intro impostor beside instead
  obtain ⟨-, hbeside, -, hkept, -⟩ :=
    registration_follows_requests { enabled := true } [impostor]
  obtain ⟨-, hinstead, -, hlost, -⟩ :=
    registration_follows_requests { enabled := true }
      [.deregister Monitor.registeredName, impostor]
  refine ⟨⟨hbeside.trans (by decide +kernel), hkept.2 ⟨rfl, ?_, ?_⟩⟩, ?_, ?_⟩
  · rw [List.mem_singleton]
    nofun
  · rw [List.mem_singleton]
    nofun
  · exact hinstead.trans (by decide +kernel)
  · rw [← Bool.not_eq_true]
    exact fun hsome => (hlost.1 hsome).2.1 List.mem_cons_self

end WaitFor.Layer
