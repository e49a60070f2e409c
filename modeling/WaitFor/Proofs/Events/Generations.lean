import Mathlib.Data.List.Induction
import Mathlib.Data.Nat.Basic
import Mathlib.Data.Set.Finite.Basic
import Mathlib.Order.Basic
import WaitFor.Handle

/-! # Generations in a history

What was asked about events, and nothing else, tells which of them are live, when the generation of
each began, and which requests refer to an event in which generation.  A generation is named by the
position of the request that began it, so two generations, be they of one event or of two, have
different names.

A history is a list of what happened, oldest first; the lemmas `…_concat…` say what one more request
adds to it.
-/

namespace WaitFor

section Latest

variable {α : Type} [DecidableEq α] {a b x : α} {history : List α}

/-- Of the entries `a` and `b` in the history, the last is `a`. -/
def Latest (a b : α) (history : List α) : Prop :=
  (history.filter fun entry => entry = a ∨ entry = b).getLast? = some a

instance (a b : α) : DecidablePred (Latest a b) := fun _ => inferInstanceAs (Decidable (_ = _))

/-- One more entry is the last of the two if it is one of them. -/
theorem latest_concat_iff : Latest a b (history ++ [x]) ↔ x = a ∨ x ≠ b ∧ Latest a b history := by
  rw [Latest, List.filter_append]
  by_cases ha : x = a
  · simp [ha]
  · by_cases hb : x = b
    · subst hb
      simp [ha]
    · simp [ha, hb, Latest]

end Latest

namespace LiveEvents

/-- What may be asked about live events: to create, destroy or reset one, to wait on one or to
signal one.  What may happen to the graph beside them is that a node is allocated which is no
event's. -/
inductive Request where
  | create (event : EventHandle)
  | destroy (event : EventHandle)
  | reset (event : EventHandle)
  | wait (event : EventHandle)
  | signal (event : EventHandle)
  | allocate
deriving DecidableEq, Repr

/-- The request asks for the node of the event. -/
def Request.Asks (request : Request) (event : EventHandle) : Prop :=
  request = .wait event ∨ request = .signal event

variable {requests : List Request} {request : Request} {event other : EventHandle}
  {kind : EventHandle → Request} {start start' i : Nat}

/-- Of the requests that create or destroy the event, the last creates it. -/
def Known (requests : List Request) (event : EventHandle) : Prop :=
  Latest (.create event) (.destroy event) requests

instance (requests : List Request) : DecidablePred (Known requests) :=
  fun _ => inferInstanceAs (Decidable (Latest _ _ _))

/-- The request begins a generation of the event if it comes after the others: it creates the event,
or resets it while it is live. -/
def Renews (requests : List Request) (request : Request) (event : EventHandle) : Prop :=
  request = .create event ∨ request = .reset event ∧ Known requests event

/-- The `i`-th request begins a generation of the event. -/
def Opens (requests : List Request) (event : EventHandle) (i : Nat) : Prop :=
  ∃ request, requests[i]? = some request ∧ Renews (requests.take i) request event

/-- The event is live after the requests, and its generation began with the one at position `start`.
-/
structure Generation (requests : List Request) (event : EventHandle) (start : Nat) : Prop where
  known : Known requests event
  opens : Opens requests event start
  le_start : ∀ i, Opens requests event i → i ≤ start

/-- The `i`-th request refers to the event in its generation from position `start` on, in the way
`kind`. -/
structure Refers (kind : EventHandle → Request) (requests : List Request) (event : EventHandle)
    (start i : Nat) : Prop where
  request : requests[i]? = some (kind event)
  generation : Generation (requests.take i) event start

/-- The `i`-th request asks for the node of the event in its generation from position `start` on. -/
def Resolved (requests : List Request) (event : EventHandle) (start i : Nat) : Prop :=
  Refers .wait requests event start i ∨ Refers .signal requests event start i

/-- The generations in which the node of the event was asked for. -/
def Used (requests : List Request) : Set Nat := {start | ∃ event i, Resolved requests event start i}

/-! ## Asking for a node -/

/-- A request asks for the node of one event. -/
theorem Request.Asks.eq (h : request.Asks event) (h' : request.Asks other) : event = other := by
  rcases h with rfl | rfl
  · exact h'.elim Request.wait.inj nofun
  · exact h'.elim nofun Request.signal.inj

theorem Request.Asks.ne_allocate (h : request.Asks event) : request ≠ .allocate := by
  rintro rfl
  exact h.elim nofun nofun

theorem Request.Asks.ne_create (h : request.Asks event) : request ≠ .create other := by
  rintro rfl
  exact h.elim nofun nofun

theorem Request.Asks.ne_destroy (h : request.Asks event) : request ≠ .destroy other := by
  rintro rfl
  exact h.elim nofun nofun

theorem Request.Asks.ne_reset (h : request.Asks event) : request ≠ .reset other := by
  rintro rfl
  exact h.elim nofun nofun

/-- Who asks for a node begins no generation. -/
theorem Request.Asks.not_renews (h : request.Asks event) : ¬ Renews requests request other := by
  rintro (hcreate | ⟨hreset, -⟩)
  · exact h.ne_create hcreate
  · exact h.ne_reset hreset

/-! ## Positions -/

theorem lt_length_of_getElem? (h : requests[i]? = some request) : i < requests.length :=
  (List.getElem?_eq_some_iff.1 h).1

/-- The request that begins a generation names its event. -/
theorem Renews.eq (h : Renews requests request event) (h' : Renews requests request other) :
    event = other := by
  rcases h with rfl | ⟨rfl, -⟩
  · rcases h' with h' | ⟨h', -⟩
    · exact Request.create.inj h'
    · cases h'
  · rcases h' with h' | ⟨h', -⟩
    · cases h'
    · exact Request.reset.inj h'

theorem Opens.lt_length (h : Opens requests event i) : i < requests.length := by
  obtain ⟨request, hi, -⟩ := h
  exact lt_length_of_getElem? hi

/-- Generations of different events begin at different positions. -/
theorem Opens.eq (h : Opens requests event i) (h' : Opens requests other i) : event = other := by
  obtain ⟨request, hi, hrenews⟩ := h
  obtain ⟨request', hi', hrenews'⟩ := h'
  obtain rfl := Option.some.inj (hi.symm.trans hi')
  exact hrenews.eq hrenews'

/-- What began a generation did so in a longer history as well. -/
theorem Opens.of_take {n : Nat} (h : Opens (requests.take n) event i) : Opens requests event i := by
  have hlt : i < n := h.lt_length.trans_le (List.length_take_le n requests)
  rwa [Opens, List.getElem?_take_of_lt hlt, List.take_take, min_eq_left hlt.le] at h

/-- A live event has one generation. -/
theorem Generation.start_unique (h : Generation requests event start)
    (h' : Generation requests event start') : start = start' :=
  le_antisymm (h'.le_start start h.opens) (h.le_start start' h'.opens)

theorem Refers.lt_length (h : Refers kind requests event start i) : i < requests.length :=
  lt_length_of_getElem? h.request

/-- A request refers to a generation that began before it. -/
theorem Refers.start_lt (h : Refers kind requests event start i) : start < i :=
  h.generation.opens.lt_length.trans_le (List.length_take_le i requests)

theorem Resolved.lt_length (h : Resolved requests event start i) : i < requests.length :=
  h.elim Refers.lt_length Refers.lt_length

theorem Resolved.start_lt (h : Resolved requests event start i) : start < i :=
  h.elim Refers.start_lt Refers.start_lt

/-- Nodes are asked for in generations that have begun. -/
theorem Resolved.opens (h : Resolved requests event start i) : Opens requests event start :=
  h.elim (fun h => h.generation.opens.of_take) fun h => h.generation.opens.of_take

/-- The generation under way is used if its event's node was asked for in it. -/
theorem Generation.mem_used_iff (h : Generation requests event start) :
    start ∈ Used requests ↔ ∃ i, Resolved requests event start i := by
  constructor
  · rintro ⟨other, i, hi⟩
    obtain rfl := h.opens.eq hi.opens
    exact ⟨i, hi⟩
  · rintro ⟨i, hi⟩
    exact ⟨event, i, hi⟩

/-! ## Specifications that can be evaluated -/

instance (requests : List Request) (request : Request) : DecidablePred (Renews requests request) :=
  fun _ => inferInstanceAs (Decidable (_ ∨ _))

instance (requests : List Request) (event : EventHandle) : DecidablePred (Opens requests event) :=
  fun i =>
    decidable_of_iff (∃ request ∈ requests[i]?, Renews (requests.take i) request event) Iff.rfl

/-- The generation of a live event is the last one that began; its beginning is found among the
requests. -/
theorem generation_iff : Generation requests event start ↔ Known requests event ∧
    Opens requests event start ∧ ∀ i < requests.length, Opens requests event i → i ≤ start := by
  constructor
  · exact fun h => ⟨h.known, h.opens, fun i _ => h.le_start i⟩
  · exact fun h => ⟨h.1, h.2.1, fun i hi => h.2.2 i hi.lt_length hi⟩

instance (requests : List Request) (event : EventHandle) :
    DecidablePred (Generation requests event) :=
  fun _ => decidable_of_iff' _ generation_iff

/-- Whether a request refers to an event is a matter of the requests before it. -/
theorem refers_iff : Refers kind requests event start i ↔
    requests[i]? = some (kind event) ∧ Generation (requests.take i) event start :=
  ⟨fun h => ⟨h.request, h.generation⟩, fun h => ⟨h.1, h.2⟩⟩

instance (kind : EventHandle → Request) (requests : List Request) (event : EventHandle)
    (start : Nat) : DecidablePred (Refers kind requests event start) :=
  fun _ => decidable_of_iff' _ refers_iff

instance (requests : List Request) (event : EventHandle) (start : Nat) :
    DecidablePred (Resolved requests event start) :=
  fun _ => inferInstanceAs (Decidable (_ ∨ _))

/-! ## One more request -/

/-- A request of a longer history is one of the history, with the same requests before it, or the
last. -/
theorem getElem?_concat_and_iff (P : List Request → Prop) (requests : List Request)
    (request r : Request) (i : Nat) :
    (requests ++ [request])[i]? = some r ∧ P ((requests ++ [request]).take i) ↔
      requests[i]? = some r ∧ P (requests.take i) ∨
        i = requests.length ∧ request = r ∧ P requests := by
  rcases lt_trichotomy i requests.length with hlt | rfl | hlt
  · rw [List.getElem?_append_left hlt, List.take_append_of_le_length hlt.le]
    exact (or_iff_left fun h => hlt.ne h.1).symm
  · simp
  · have hnone : requests[i]? = none := List.getElem?_eq_none hlt.le
    have hnone' : (requests ++ [request])[i]? = none :=
      List.getElem?_eq_none (by rwa [List.length_append, List.length_singleton])
    simp [hnone, hnone', hlt.ne']

/-- One more request makes an event live, ends its life, or leaves it as it was. -/
theorem known_concat_iff : Known (requests ++ [request]) event ↔
    request = .create event ∨ request ≠ .destroy event ∧ Known requests event :=
  latest_concat_iff

/-- Only creations and destructions decide whether an event is live. -/
theorem known_concat_of_ne (hcreate : request ≠ .create event)
    (hdestroy : request ≠ .destroy event) :
    Known (requests ++ [request]) event ↔ Known requests event :=
  known_concat_iff.trans ((or_iff_right hcreate).trans (and_iff_right hdestroy))

theorem not_known_concat_destroy : ¬ Known (requests ++ [.destroy event]) event := by
  intro hknown
  rcases known_concat_iff.1 hknown with hcreate | ⟨hdestroy, -⟩
  · cases hcreate
  · exact hdestroy rfl

/-- One more request may begin a generation, at its own position. -/
theorem opens_concat_iff : Opens (requests ++ [request]) event i ↔
    Opens requests event i ∨ i = requests.length ∧ Renews requests request event := by
  have hiff := fun r =>
    getElem?_concat_and_iff (fun requests => Renews requests r event) requests request r i
  rw [Opens, exists_congr hiff, exists_or]
  simp [Opens]

/-- One more request may refer to the generation that it finds. -/
theorem refers_concat_iff : Refers kind (requests ++ [request]) event start i ↔
    Refers kind requests event start i ∨
      i = requests.length ∧ request = kind event ∧ Generation requests event start := by
  rw [refers_iff, refers_iff,
    getElem?_concat_and_iff fun requests => Generation requests event start]

/-- Earlier requests refer to what they referred to. -/
theorem refers_concat_of_lt (h : i < requests.length) :
    Refers kind (requests ++ [request]) event start i ↔ Refers kind requests event start i :=
  refers_concat_iff.trans (or_iff_left fun hi => h.ne hi.1)

/-- One more request may ask for the node of the generation that it finds. -/
theorem resolved_concat_iff : Resolved (requests ++ [request]) event start i ↔
    Resolved requests event start i ∨ i = requests.length ∧
      request.Asks event ∧ Generation requests event start := by
  rw [Resolved, refers_concat_iff, refers_concat_iff, Resolved, Request.Asks, or_and_right,
    and_or_left]
  exact or_or_or_comm

/-- A request that begins a generation begins the one under way. -/
theorem generation_concat_of_renews (h : Renews requests request event) :
    Generation (requests ++ [request]) event start ↔ start = requests.length := by
  have hopens : Opens (requests ++ [request]) event requests.length :=
    opens_concat_iff.2 (Or.inr ⟨rfl, h⟩)
  constructor
  · intro hgen
    refine le_antisymm ?_ (hgen.le_start _ hopens)
    have hlt := hgen.opens.lt_length
    rw [List.length_append, List.length_singleton] at hlt
    exact Nat.le_of_lt_succ hlt
  · rintro rfl
    refine ⟨known_concat_iff.2 ?_, hopens, fun i hi => ?_⟩
    · rcases h with rfl | ⟨rfl, hknown⟩
      · exact Or.inl rfl
      · exact Or.inr ⟨nofun, hknown⟩
    · rcases opens_concat_iff.1 hi with hi | ⟨rfl, -⟩
      · exact hi.lt_length.le
      · exact le_rfl

/-- A request that neither begins nor ends a generation leaves the one under way. -/
theorem generation_concat_of_not_renews (h : ¬ Renews requests request event)
    (hdestroy : request ≠ .destroy event) :
    Generation (requests ++ [request]) event start ↔ Generation requests event start := by
  have hopens : ∀ i, Opens (requests ++ [request]) event i ↔ Opens requests event i :=
    fun i => opens_concat_iff.trans (or_iff_left fun hi => h hi.2)
  have hknown : Known (requests ++ [request]) event ↔ Known requests event :=
    known_concat_of_ne (fun hcreate => h (Or.inl hcreate)) hdestroy
  constructor
  · intro hgen
    exact ⟨hknown.1 hgen.known, (hopens _).1 hgen.opens,
      fun i hi => hgen.le_start i ((hopens i).2 hi)⟩
  · intro hgen
    exact ⟨hknown.2 hgen.known, (hopens _).2 hgen.opens,
      fun i hi => hgen.le_start i ((hopens i).1 hi)⟩

/-- Every live event has a generation under way. -/
theorem exists_generation (h : Known requests event) :
    ∃ start, Generation requests event start := by
  induction requests using List.reverseRecOn with
  | nil => cases h
  | append_singleton requests request ih =>
    by_cases hrenews : Renews requests request event
    · exact ⟨_, (generation_concat_of_renews hrenews).2 rfl⟩
    · rcases known_concat_iff.1 h with hcreate | ⟨hdestroy, hknown⟩
      · exact absurd (Or.inl hcreate) hrenews
      · obtain ⟨start, hgen⟩ := ih hknown
        exact ⟨start, (generation_concat_of_not_renews hrenews hdestroy).2 hgen⟩

/-! ## References -/

theorem refers_concat_of_ne (h : Generation requests event start → request ≠ kind event) :
    Refers kind (requests ++ [request]) event start i ↔ Refers kind requests event start i :=
  refers_concat_iff.trans (or_iff_left fun hi => h hi.2.2 hi.2.1)

/-- The request asks for no node that an event has or is given, if it comes after the others. -/
def Silent (requests : List Request) (request : Request) : Prop :=
  ∀ event start, Generation requests event start → ¬ request.Asks event

/-- A request that asks for no node is silent. -/
theorem silent_of_not_asks (h : ∀ event, ¬ request.Asks event) : Silent requests request :=
  fun event _ _ => h event

/-- A silent request asks for no node. -/
theorem Silent.resolved_concat_iff (h : Silent requests request) :
    Resolved (requests ++ [request]) event start i ↔ Resolved requests event start i :=
  LiveEvents.resolved_concat_iff.trans (or_iff_left fun hi => h event start hi.2.2 hi.2.1)

/-- A silent request uses no generation. -/
theorem Silent.used_concat (h : Silent requests request) :
    Used (requests ++ [request]) = Used requests :=
  Set.ext fun _ => exists_congr fun _ => exists_congr fun _ => h.resolved_concat_iff

/-- A request for the node of an event uses the generation under way. -/
theorem used_concat_of_generation (hasks : request.Asks event)
    (hgen : Generation requests event start) :
    Used (requests ++ [request]) = insert start (Used requests) := by
  ext s
  constructor
  · rintro ⟨other, i, hresolved⟩
    rcases resolved_concat_iff.1 hresolved with hold | ⟨-, hother, hgen'⟩
    · exact Or.inr ⟨other, i, hold⟩
    · obtain rfl := hasks.eq hother
      exact Or.inl (hgen'.start_unique hgen)
  · rintro (rfl | ⟨other, i, hold⟩)
    · exact ⟨event, _, resolved_concat_iff.2 (Or.inr ⟨rfl, hasks, hgen⟩)⟩
    · exact ⟨other, i, resolved_concat_iff.2 (Or.inl hold)⟩

@[simp]
theorem used_nil : Used [] = ∅ :=
  Set.eq_empty_iff_forall_notMem.2 fun _ ⟨_, _, h⟩ => absurd h.lt_length (Nat.not_lt_zero _)

/-- A generation that was used has begun. -/
theorem lt_length_of_mem_used (h : start ∈ Used requests) : start < requests.length := by
  obtain ⟨event, i, h⟩ := h
  exact h.start_lt.trans h.lt_length

/-- Only as many generations are used as there are requests. -/
theorem finite_used (requests : List Request) : (Used requests).Finite :=
  (Set.finite_lt_nat requests.length).subset fun _ => lt_length_of_mem_used

end LiveEvents

end WaitFor
