import WaitFor.Layer

/-! # Dispatch to the observers of a layer

A layer goes through its observers call by call.  The reference goes through the calls observer by
observer (`Layer.cascade`): each is told, in one go, all notices that the ones before it accepted.
Both lead to the same observers (`runCalls_slots`).
-/

namespace WaitFor

/-! ## Observers on their own -/

namespace Observer

variable {σ : Type} [Observer σ] {o : σ} {notice : Notice}

/-- The observer after notices, whatever it answered to them. -/
def after (o : σ) (notices : List Notice) : σ :=
  notices.foldl (fun o notice => (notify o notice).state) o

/-- What the observer answers to notices, one after the other. -/
def verdicts (o : σ) : List Notice → List Verdict
  | [] => []
  | notice :: notices =>
    let reply := notify o notice
    reply.verdict :: verdicts reply.state notices

/-- Of notices that the observer is told one after the other, those that it accepts. -/
def accepted (o : σ) : List Notice → List Notice
  | [] => []
  | notice :: notices =>
    let reply := notify o notice
    match reply.verdict with
    | .ok () => notice :: accepted reply.state notices
    | .error _ => accepted reply.state notices

/-- The observer accepts everything, whatever it was told before. -/
def NeverObjects (o : σ) : Prop :=
  ∀ notices notice, (notify (after o notices) notice).verdict = .ok ()

theorem accepted_cons_of_ok (notices : List Notice) (h : (notify o notice).verdict = .ok ()) :
    accepted o (notice :: notices) = notice :: accepted (notify o notice).state notices := by
  rw [accepted, h]

theorem accepted_cons_of_error {violation : Violation} (notices : List Notice)
    (h : (notify o notice).verdict = .error violation) :
    accepted o (notice :: notices) = accepted (notify o notice).state notices := by
  rw [accepted, h]

/-- Who never objects does not begin to. -/
theorem NeverObjects.notify (h : NeverObjects o) (notice : Notice) :
    NeverObjects (Observer.notify o notice).state :=
  fun notices => h (notice :: notices)

/-- Who never objects accepts everything. -/
theorem NeverObjects.accepted (h : NeverObjects o) (notices : List Notice) :
    accepted o notices = notices := by
  induction notices generalizing o with
  | nil => rfl
  | cons notice notices ih =>
    have hok : (Observer.notify o notice).verdict = .ok () := h [] notice
    rw [accepted_cons_of_ok notices hok, ih (h.notify notice)]

end Observer

variable {κ : Type} [Observer κ]

/-- The slot after its observer was told notices. -/
def Slot.after (slot : Slot κ) (notices : List Notice) : Slot κ :=
  { slot with observer := Observer.after slot.observer notices }

/-- What the slot's observer answers to a notice. -/
def Slot.verdict (slot : Slot κ) (notice : Notice) : Verdict :=
  (Observer.notify slot.observer notice).verdict

/-- What the slot's observer reports of a notice. -/
def Slot.reports (slot : Slot κ) (notice : Notice) : List Violation :=
  (Observer.notify slot.observer notice).reported

namespace Layer

variable {l : Layer κ} {slot : Slot κ} {slots before after : List (Slot κ)} {notice : Notice}
  {violation : Violation} {call : Call} {outcome : Outcome}

/-! ## One notice -/

/-- A notice that nobody objects to is told everybody. -/
theorem notifySlots_of_ok (h : ∀ slot ∈ slots, slot.verdict notice = .ok ()) :
    notifySlots notice slots =
      { state := slots.map fun slot => slot.after [notice]
        verdict := .ok ()
        reported := slots.flatMap fun slot => slot.reports notice } := by
  induction slots with
  | nil => rfl
  | cons slot slots ih =>
    obtain ⟨hslot, hslots⟩ := List.forall_mem_cons.1 h
    rw [Slot.verdict] at hslot
    simp only [notifySlots, hslot, ih hslots]
    rfl

/-- Nobody behind the first that objects is told. -/
theorem notifySlots_of_error (h : ∀ earlier ∈ before, earlier.verdict notice = .ok ())
    (hslot : slot.verdict notice = .error violation) (after : List (Slot κ)) :
    notifySlots notice (before ++ slot :: after) =
      { state := (before ++ [slot]).map (fun slot => slot.after [notice]) ++ after
        verdict := .error violation
        reported := (before ++ [slot]).flatMap fun slot => slot.reports notice } := by
  induction before with
  | nil =>
    rw [Slot.verdict] at hslot
    simp only [List.nil_append, notifySlots, hslot, List.flatMap_singleton]
    rfl
  | cons earlier before ih =>
    obtain ⟨hearlier, hbefore⟩ := List.forall_mem_cons.1 h
    rw [Slot.verdict] at hearlier
    simp only [List.cons_append, notifySlots, hearlier, ih hbefore]
    rfl

/-- Either nobody objects to a notice, or somebody is the first to do so. -/
theorem ok_or_first_error (notice : Notice) (slots : List (Slot κ)) :
    (∀ slot ∈ slots, slot.verdict notice = .ok ()) ∨
      ∃ before slot after violation, slots = before ++ slot :: after ∧
        (∀ earlier ∈ before, earlier.verdict notice = .ok ()) ∧
          slot.verdict notice = .error violation := by
  induction slots with
  | nil => exact Or.inl nofun
  | cons slot slots ih =>
    cases hslot : slot.verdict notice with
    | error violation => exact Or.inr ⟨[], slot, slots, violation, rfl, nofun, hslot⟩
    | ok _ =>
      rcases ih with hslots | ⟨before, other, after, violation, rfl, hbefore, hother⟩
      · exact Or.inl (List.forall_mem_cons.2 ⟨hslot, hslots⟩)
      · refine Or.inr ⟨slot :: before, other, after, violation, rfl, ?_, hother⟩
        exact List.forall_mem_cons.2 ⟨hslot, hbefore⟩

/-- How the observers of a layer are told a notice: in order, each once, up to the first that
objects. If that is the observer of `slot`, those behind it stay as they are. -/
inductive Told (notice : Notice) (l : Layer κ) : Verdict × Layer κ → Prop
  | accepted (h : ∀ slot ∈ l.slots, slot.verdict notice = .ok ()) :
    Told notice l (.ok (), l.advance (l.slots.map fun slot => slot.after [notice])
      (l.slots.flatMap fun slot => slot.reports notice))
  | refused {before after : List (Slot κ)} {slot : Slot κ} {violation : Violation}
      (hslots : l.slots = before ++ slot :: after)
      (hbefore : ∀ earlier ∈ before, earlier.verdict notice = .ok ())
      (hslot : slot.verdict notice = .error violation) :
    Told notice l (.error violation,
      l.advance ((before ++ [slot]).map (fun slot => slot.after [notice]) ++ after)
        ((before ++ [slot]).flatMap fun slot => slot.reports notice))

/-- A layer tells its observers in order, up to the first that objects. -/
theorem deliver_told (l : Layer κ) (notice : Notice) : Told notice l (l.deliver (some notice)) := by
  rw [deliver]
  rcases ok_or_first_error notice l.slots with
    hok | ⟨before, slot, after, _, hslots, hbefore, hslot⟩
  · rw [notifySlots_of_ok hok]
    exact .accepted hok
  · rw [hslots, notifySlots_of_error hbefore hslot after]
    exact .refused hslots hbefore hslot

/-! ## One call -/

/-- When a layer tells its observers of a call: of a creation afterwards, and only if there is a new
event, of any other call beforehand. -/
structure Announces (l : Layer κ) : Prop where
  eventDestroy : ∀ event outcome, Told (.destroyed event) l (l.beforeCall (.eventDestroy event)) ∧
    l.afterCall (.eventDestroy event) outcome = (.ok (), l)
  eventHostReset : ∀ event outcome,
    Told (.hostReset event) l (l.beforeCall (.eventHostReset event)) ∧
      l.afterCall (.eventHostReset event) outcome = (.ok (), l)
  append : ∀ s outcome, Told (.submitted s) l (l.beforeCall (.append s)) ∧
    l.afterCall (.append s) outcome = (.ok (), l)
  eventCreate : ∀ pool index event, l.beforeCall (.eventCreate pool index) = (.ok (), l) ∧
    Told (.created event) l (l.afterCall (.eventCreate pool index) (.created event))
  notCreated : ∀ pool index outcome, (∀ event, outcome ≠ .created event) →
    l.afterCall (.eventCreate pool index) outcome = (.ok (), l)

/-- Every layer announces calls. -/
theorem announces (l : Layer κ) : l.Announces where
  eventDestroy event _ := ⟨l.deliver_told (.destroyed event), rfl⟩
  eventHostReset event _ := ⟨l.deliver_told (.hostReset event), rfl⟩
  append s _ := ⟨l.deliver_told (.submitted s), rfl⟩
  eventCreate _ _ event := ⟨rfl, l.deliver_told (.created event)⟩
  notCreated pool index outcome h := by
    cases outcome with
    | created event => exact absurd rfl (h event)
    | success => rfl
    | failed code => rfl

/-- The one thing that there is to tell of a call, before or after it. -/
def notice? : Call × Outcome → Option Notice
  | (.eventCreate .., .created event) => some (.created event)
  | (.eventCreate .., _) => none
  | (.eventDestroy event, _) => some (.destroyed event)
  | (.eventHostReset event, _) => some (.hostReset event)
  | (.append s, _) => some (.submitted s)

/-- A call is one notice, or none. -/
theorem call_eq_deliver (l : Layer κ) (call : Call) (outcome : Outcome) :
    l.call call outcome = l.deliver (notice? (call, outcome)) := by
  -- What is told before the call leaves nothing to tell after it.
  have hbefore : ∀ {notice}, noticeBefore? call = some notice → noticeAfter? call outcome = none →
      l.call call outcome = l.deliver (some notice) := by
    intro notice hbefore hafter
    rw [Layer.call, beforeCall, hbefore]
    split
    · next l' heq => rw [afterCall, hafter, deliver, heq]
    · rfl
  cases call with
  | eventCreate pool index => cases outcome <;> rfl
  | eventDestroy event => exact hbefore rfl rfl
  | eventHostReset event => exact hbefore rfl rfl
  | append s => exact hbefore rfl rfl

/-! ## Runs -/

/-- The layer after calls with their outcomes, whatever it answered to them. -/
def runCalls (l : Layer κ) (calls : List (Call × Outcome)) : Layer κ :=
  calls.foldl (fun l entry => (l.call entry.1 entry.2).2) l

/-- Slots whose observers are told notices one observer after the other, each those that all before
it accepted. -/
def cascade : List (Slot κ) → List Notice → List (Slot κ)
  | [], _ => []
  | slot :: slots, notices =>
    slot.after notices :: cascade slots (Observer.accepted slot.observer notices)

/-- Without notices the observers stay as they are. -/
theorem cascade_nil (slots : List (Slot κ)) : cascade slots [] = slots := by
  induction slots with
  | nil => rfl
  | cons slot slots ih => exact congrArg (List.cons slot) ih

/-- The first of the notices may be told everybody before the others. -/
theorem cascade_cons (notice : Notice) (notices : List Notice) (slots : List (Slot κ)) :
    cascade slots (notice :: notices) = cascade (notifySlots notice slots).state notices := by
  induction slots generalizing notices with
  | nil => rfl
  | cons slot slots ih =>
    rw [cascade, notifySlots]
    cases hslot : (Observer.notify slot.observer notice).verdict with
    | ok _ =>
      rw [Observer.accepted_cons_of_ok notices hslot, ih]
      rfl
    | error violation =>
      rw [Observer.accepted_cons_of_error notices hslot]
      rfl

/-- Observers that never object let everything pass. -/
theorem cascade_append (hbefore : ∀ earlier ∈ before, Observer.NeverObjects earlier.observer)
    (slots : List (Slot κ)) (notices : List Notice) :
    cascade (before ++ slots) notices =
      before.map (fun slot => slot.after notices) ++ cascade slots notices := by
  induction before with
  | nil => rfl
  | cons earlier before ih =>
    obtain ⟨hearlier, hbefore⟩ := List.forall_mem_cons.1 hbefore
    rw [List.cons_append, cascade, hearlier.accepted, ih hbefore]
    rfl

/-- Going through the calls comes to the same as going through the observers. -/
theorem runCalls_slots (l : Layer κ) (calls : List (Call × Outcome)) :
    (l.runCalls calls).slots = cascade l.slots (calls.filterMap notice?) := by
  induction calls generalizing l with
  | nil => exact (cascade_nil l.slots).symm
  | cons entry calls ih =>
    show ((l.call entry.1 entry.2).2.runCalls calls).slots = _
    rw [ih, call_eq_deliver]
    cases hnotice : notice? entry with
    | none => rw [List.filterMap_cons_none hnotice, deliver]
    | some notice =>
      rw [List.filterMap_cons_some hnotice, cascade_cons, deliver]
      rfl

/-- What the observer at position `k` answers to a call; `none` if it is told nothing of it. -/
def answerAt? (l : Layer κ) (k : Nat) (entry : Call × Outcome) : Option Verdict :=
  match notice? entry with
  | none => none
  | some notice =>
    if (l.slots.take k).all fun earlier => (earlier.verdict notice).isOk then
      l.slots[k]?.map fun slot => slot.verdict notice
    else none

/-- What the observer at position `k` answers over a run. -/
def answersAt (k : Nat) (l : Layer κ) : List (Call × Outcome) → List Verdict
  | [] => []
  | entry :: calls => (l.answerAt? k entry).toList ++ (l.call entry.1 entry.2).2.answersAt k calls

/-- An observer behind such as never object is told of every call that there is something to tell
of. -/
theorem exists_slots_call {entry : Call × Outcome} (hslots : l.slots = before ++ slot :: after)
    (hbefore : ∀ earlier ∈ before, Observer.NeverObjects earlier.observer)
    (hnotice : notice? entry = some notice) :
    ∃ after', (l.call entry.1 entry.2).2.slots =
      before.map (fun slot => slot.after [notice]) ++ slot.after [notice] :: after' := by
  have hrun := l.runCalls_slots [entry]
  rw [List.filterMap_cons_some hnotice, List.filterMap_nil, hslots, cascade_append hbefore,
    cascade] at hrun
  exact ⟨_, hrun⟩

/-- Behind observers that never object, an observer answers as it would on its own. -/
theorem answersAt_eq (hslots : l.slots = before ++ slot :: after)
    (hbefore : ∀ earlier ∈ before, Observer.NeverObjects earlier.observer)
    (calls : List (Call × Outcome)) :
    l.answersAt before.length calls =
      Observer.verdicts slot.observer (calls.filterMap notice?) := by
  induction calls generalizing l before slot after with
  | nil => rfl
  | cons entry calls ih =>
    rw [answersAt, answerAt?]
    cases hnotice : notice? entry with
    | none =>
      have hcall : (l.call entry.1 entry.2).2 = l := by
        rw [call_eq_deliver, hnotice, deliver]
      rw [List.filterMap_cons_none hnotice, hcall, ← ih hslots hbefore]
      rfl
    | some notice =>
      have hanswer : (if (l.slots.take before.length).all fun earlier =>
            (earlier.verdict notice).isOk then
          l.slots[before.length]?.map fun slot => slot.verdict notice
        else none) = some (slot.verdict notice) := by
        have hok : ∀ earlier ∈ before, (earlier.verdict notice).isOk = true := by
          intro earlier hearlier
          have hverdict : earlier.verdict notice = .ok () := hbefore earlier hearlier [] notice
          rw [hverdict]
          rfl
        rw [hslots, List.take_left, if_pos (List.all_eq_true.2 hok)]
        simp
      obtain ⟨after', hnext⟩ := exists_slots_call hslots hbefore hnotice
      have hrest := ih hnext fun earlier hearlier => by
        obtain ⟨slot', hmem, rfl⟩ := List.mem_map.1 hearlier
        exact (hbefore slot' hmem).notify notice
      rw [List.length_map] at hrest
      simp only [List.filterMap_cons_some hnotice, Observer.verdicts, hanswer, hrest]
      rfl

/-- In a layer with any observers, after any calls, a destruction, a reset or an append is told
beforehand and a creation afterwards, if there is a new event, and nothing else is told: each
observer in order once, up to the first that objects, whose violation is the answer.  So after the
calls each observer is as if it had been told on its own all that those before it accepted.  An
observer behind such as never object is as if it had been told everything: it answers as it would on
its own, and what it objects to is refused with its own violation. -/
theorem dispatch_is_faithful (l : Layer κ) (calls : List (Call × Outcome)) :
    (l.runCalls calls).Announces ∧
      (l.runCalls calls).slots = cascade l.slots (calls.filterMap notice?) ∧
      ∀ before slot after, l.slots = before ++ slot :: after →
        (∀ earlier ∈ before, Observer.NeverObjects earlier.observer) →
        let told := slot.after (calls.filterMap notice?)
        (l.runCalls calls).slots[before.length]? = some told ∧
          l.answersAt before.length calls =
            Observer.verdicts slot.observer (calls.filterMap notice?) ∧
          ∀ call outcome notice violation, notice? (call, outcome) = some notice →
            told.verdict notice = .error violation →
            ((l.runCalls calls).call call outcome).1 = .error violation := by
  have hslots := l.runCalls_slots calls
  refine ⟨announces _, hslots, ?_⟩
  intro before slot after hsplit hbefore told
  rw [hsplit, cascade_append hbefore, cascade] at hslots
  refine ⟨?_, answersAt_eq hsplit hbefore calls, ?_⟩
  · rw [hslots, List.getElem?_append_right (by simp)]
    simp [told]
  · intro call outcome notice violation hnotice hverdict
    rw [call_eq_deliver, hnotice, deliver, hslots]
    refine congrArg Reply.verdict (notifySlots_of_error ?_ hverdict _)
    intro earlier hearlier
    obtain ⟨slot', hmem, rfl⟩ := List.mem_map.1 hearlier
    exact hbefore slot' hmem _ notice

/-- An observer that writes down what it is told and, if it is strict, objects to resets. -/
structure Scribe where
  title : String
  strict : Bool
  heard : List Notice := []
deriving DecidableEq

instance : Observer Scribe where
  name := Scribe.title
  notify scribe notice :=
    { state := { scribe with heard := scribe.heard ++ [notice] }
      verdict := match scribe.strict, notice with
        | true, .hostReset event => .error (.unknownSignalEvent scribe.title event)
        | _, _ => .ok () }

/-- A scribe that is not strict never objects. -/
theorem Scribe.neverObjects {scribe : Scribe} (h : scribe.strict = false) :
    Observer.NeverObjects (Hosted.guest scribe) := by
  intro notices notice
  induction notices generalizing scribe with
  | nil => simp [Observer.after, Observer.notify, h]
  | cons other notices ih => exact @ih { scribe with heard := scribe.heard ++ [other] } h

/-- A strict scribe stands between two others: the one before it hears of the reset and the one
behind it does not; of the creation that failed none of them hears. -/
theorem dispatch_is_faithful_of_scribes :
    let slot (id : Nat) (title : String) (strict : Bool) (heard : List Notice) : Slot Scribe :=
      ⟨id, title, .guest ⟨title, strict, heard⟩⟩
    let l : Layer Scribe :=
      { slots := [slot 0 "first" false [], slot 1 "second" true [], slot 2 "third" false []] }
    let calls : List (Call × Outcome) := [(.eventCreate ⟨5⟩ 0, .created ⟨1⟩),
      (.eventCreate ⟨5⟩ 1, .failed 7), (.eventHostReset ⟨1⟩, .success),
      (.eventDestroy ⟨1⟩, .success)]
    (l.runCalls calls).slots =
      [slot 0 "first" false [.created ⟨1⟩, .hostReset ⟨1⟩, .destroyed ⟨1⟩],
        slot 1 "second" true [.created ⟨1⟩, .hostReset ⟨1⟩, .destroyed ⟨1⟩],
        slot 2 "third" false [.created ⟨1⟩, .destroyed ⟨1⟩]] ∧
      ((l.runCalls calls).call (.eventHostReset ⟨1⟩) .success).1 =
        .error (.unknownSignalEvent "second" ⟨1⟩) := by
  intro slot l calls
  obtain ⟨-, hslots, hbehind⟩ := dispatch_is_faithful l calls
  have hfirst : ∀ earlier ∈ [slot 0 "first" false []],
      Observer.NeverObjects earlier.observer := by
    intro earlier hearlier
    obtain rfl := List.mem_singleton.1 hearlier
    exact Scribe.neverObjects rfl
  obtain ⟨-, -, hrefused⟩ := hbehind _ (slot 1 "second" true []) _ rfl hfirst
  exact ⟨hslots, hrefused _ _ _ _ rfl rfl⟩

end Layer

end WaitFor
