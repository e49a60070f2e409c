import Mathlib.Data.List.Forall2
import WaitFor.Proofs.Monitor.Verdicts

/-! # Deadlocks in any order

As long as no event is created, destroyed or reset, a chronicle is no more than a list of pairs of
events: what was waited on and what was signaled.  The submission that closes the first circle of
pairs is refused, so whether any is refused depends on the pairs alone, and not on the order in
which they came. -/

namespace WaitFor

open Relation

/-- The pairs of a waited and a signaled event that an append adds. -/
def dependencies {κ : Type} (signal : Option κ) (keys : List κ) : List (κ × κ) :=
  signal.toList.flatMap fun signal => keys.map (·, signal)

/-- A submission makes its signal depend on each of its waits. -/
theorem mem_dependencies {κ : Type} {signal : Option κ} {keys : List κ} {key other : κ} :
    (key, other) ∈ dependencies signal keys ↔ signal = some other ∧ key ∈ keys := by
  cases signal with
  | none => simp [dependencies]
  | some signal => simp [dependencies, and_comm]

namespace Chronicle

variable {κ : Type} [DecidableEq κ] {c : Chronicle κ} {pairs pairs' : List (κ × κ)}
  {signal key : κ} {keys : List κ} {γ δ : Nat}

/-- The chronicle has the given pairs as the waits between its current generations, and no other
waits. -/
structure Records (c : Chronicle κ) (pairs : List (κ × κ)) : Prop where
  current_inj : ∀ {key other γ}, c.current key = some γ → c.current other = some γ → key = other
  wait_of_pair : ∀ {key signal}, (key, signal) ∈ pairs →
    ∃ γ δ, c.current key = some γ ∧ c.current signal = some δ ∧ (γ, δ) ∈ c.waits
  pair_of_wait : ∀ {γ δ}, (γ, δ) ∈ c.waits →
    ∃ key signal, c.current key = some γ ∧ c.current signal = some δ ∧ (key, signal) ∈ pairs

namespace Records

omit [DecidableEq κ] in
/-- The order of the recorded pairs does not matter. -/
theorem congr (h : c.Records pairs) (hpairs : ∀ p, p ∈ pairs' ↔ p ∈ pairs) : c.Records pairs' where
  current_inj := h.current_inj
  wait_of_pair hm := h.wait_of_pair ((hpairs _).1 hm)
  pair_of_wait hwait := by
    simp only [hpairs]
    exact h.pair_of_wait hwait

omit [DecidableEq κ] in
/-- Generations are chained as the events are that they are current for. -/
theorem chains_iff (h : c.Records pairs) (hγ : c.current signal = some γ)
    (hδ : c.current key = some δ) : Chains c.waits γ δ ↔ Chains pairs signal key := by
  constructor
  · intro hchain
    induction hchain using ReflTransGen.head_induction_on generalizing signal with
    | refl => exact h.current_inj hγ hδ ▸ .refl
    | head hwait _ ih =>
      obtain ⟨first, second, hfirst, hsecond, hpair⟩ := h.pair_of_wait hwait
      obtain rfl := h.current_inj hγ hfirst
      exact .head hpair (ih hsecond)
  · intro hchain
    induction hchain using ReflTransGen.head_induction_on generalizing γ with
    | refl => exact Option.some.inj (hγ.symm.trans hδ) ▸ .refl
    | head hpair _ ih =>
      obtain ⟨first, second, hfirst, hsecond, hwait⟩ := h.wait_of_pair hpair
      obtain rfl := Option.some.inj (hγ.symm.trans hfirst)
      exact .head hwait (ih hsecond)

omit [DecidableEq κ] in
/-- A wait is refused if chains of recorded pairs lead from the signal to it. -/
theorem blocks_iff (h : c.Records pairs) (hs : (c.current signal).isSome = true)
    (hk : (c.current key).isSome = true) : c.Blocks signal key ↔ Chains pairs signal key := by
  obtain ⟨γ, hγ⟩ := Option.isSome_iff_exists.1 hs
  obtain ⟨δ, hδ⟩ := Option.isSome_iff_exists.1 hk
  rw [Blocks, hγ, hδ]
  simp only [Option.mem_some, exists_eq_left', h.chains_iff hγ hδ]
  refine or_iff_right_of_imp ?_
  rintro rfl
  exact .refl

omit [DecidableEq κ] in
/-- An accepted wait is recorded as a pair. -/
theorem addWait (h : c.Records pairs) (hs : (c.current signal).isSome = true)
    (hk : (c.current key).isSome = true) :
    (c.addWait signal key).Records ((key, signal) :: pairs) := by
  obtain ⟨δ, hδ⟩ := Option.isSome_iff_exists.1 hs
  obtain ⟨γ, hγ⟩ := Option.isSome_iff_exists.1 hk
  have hwaits : (c.addWait signal key).waits = (γ, δ) :: c.waits := by
    rw [Chronicle.addWait, hγ, hδ]
  refine ⟨?_, ?_, ?_⟩
  · rw [addWait_current]
    exact h.current_inj
  · intro first second hpair
    rw [addWait_current, hwaits]
    rcases List.mem_cons.1 hpair with heq | hpair
    · obtain ⟨rfl, rfl⟩ := Prod.mk.inj heq
      exact ⟨γ, δ, hγ, hδ, List.mem_cons_self⟩
    · obtain ⟨α, β, hα, hβ, hwait⟩ := h.wait_of_pair hpair
      exact ⟨α, β, hα, hβ, List.mem_cons_of_mem _ hwait⟩
  · intro α β hwait
    rw [addWait_current]
    rw [hwaits] at hwait
    rcases List.mem_cons.1 hwait with heq | hwait
    · obtain ⟨rfl, rfl⟩ := Prod.mk.inj heq
      exact ⟨key, signal, hγ, hδ, List.mem_cons_self⟩
    · obtain ⟨first, second, hfirst, hsecond, hpair⟩ := h.pair_of_wait hwait
      exact ⟨first, second, hfirst, hsecond, List.mem_cons_of_mem _ hpair⟩

/-- Waits of which none is blocked are recorded, all of them. -/
theorem awaitAll (h : c.Records pairs) (hs : (c.current signal).isSome = true)
    (hk : ∀ key ∈ keys, (c.current key).isSome = true)
    (hfree : (c.awaitAll signal keys).1 = none) :
    (c.awaitAll signal keys).2.Records (keys.map (·, signal) ++ pairs) := by
  induction keys generalizing c pairs with
  | nil => exact h
  | cons key keys ih =>
    obtain ⟨hkey, hk⟩ := List.forall_mem_cons.1 hk
    unfold Chronicle.awaitAll at hfree ⊢
    split at hfree
    · cases hfree
    · next hb =>
      rw [if_neg hb]
      have hrest := ih (h.addWait hs hkey) (by rwa [addWait_current])
        (by rwa [addWait_current]) hfree
      refine hrest.congr fun p => ?_
      simp only [List.map_cons, List.cons_append, List.mem_cons, List.mem_append]
      exact or_left_comm

/-- An append of live events is accepted and recorded unless it closes a circle. -/
theorem append {signal : Option κ} (h : c.Records pairs) (hacyclic : ¬ Circular pairs)
    (hs : ∀ key ∈ signal, (c.current key).isSome = true)
    (hk : ∀ key ∈ keys, (c.current key).isSome = true) :
    (c.append signal keys).1 = none ∧ ¬ Circular (dependencies signal keys ++ pairs) ∧
        (c.append signal keys).2.Records (dependencies signal keys ++ pairs) ∨
      (∃ key, (c.append signal keys).1 = some (.deadlock key)) ∧
        Circular (dependencies signal keys ++ pairs) := by
  rw [append_of_live hs hk]
  cases signal with
  | none => exact Or.inl ⟨rfl, hacyclic, h⟩
  | some signal =>
    have hs := hs signal rfl
    have hpairs : dependencies (some signal) keys = keys.map (·, signal) := by
      simp [dependencies]
    rw [Option.elim_some, hpairs, Circular.map_append_iff, or_iff_right hacyclic, awaitAll_fst]
    cases hfind : keys.find? fun key => c.Blocks signal key with
    | some key =>
      have hm := List.mem_of_find?_eq_some hfind
      have hb : c.Blocks signal key := by simpa using List.find?_some hfind
      exact Or.inr ⟨⟨key, rfl⟩, key, hm, (h.blocks_iff hs (hk key hm)).1 hb⟩
    | none =>
      refine Or.inl ⟨rfl, ?_, h.awaitAll hs hk (by rw [awaitAll_fst, hfind]; rfl)⟩
      rintro ⟨key, hm, hchain⟩
      have hb := List.find?_eq_none.1 hfind key hm
      rw [decide_eq_true_iff] at hb
      exact hb ((h.blocks_iff hs (hk key hm)).2 hchain)

end Records

end Chronicle

namespace Monitor

variable {m : Monitor} {c : Chronicle EventHandle} {pairs : List (EventHandle × EventHandle)}
  {events : List EventHandle} {submissions : List Submission}

/-- Creations start generations and record no waits. -/
theorem agrees_created (h : m.Agrees c) (events : List EventHandle) :
    ∃ c', (m.afterAll (events.map .created)).Agrees c' ∧ c'.waits = c.waits ∧
      ∀ event, event ∈ events ∨ (c.current event).isSome = true →
        (c'.current event).isSome = true := by
  induction events generalizing m c with
  | nil => exact ⟨c, h, rfl, fun event he => he.resolve_left List.not_mem_nil⟩
  | cons first events ih =>
    obtain ⟨c', hagrees, hwaits, hlive⟩ := ih (notify_agrees h (.created first)).2
    refine ⟨c', hagrees, hwaits, fun event he => hlive event ?_⟩
    show _ ∨ ((c.create first).current event).isSome = true
    rw [Chronicle.current_create]
    by_cases hf : first = event
    · rw [if_pos hf]
      exact Or.inr rfl
    · rw [if_neg hf]
      refine he.imp_left fun hm => (List.mem_cons.1 hm).resolve_left (Ne.symm hf)

/-- Some submission is refused if and only if the waits of all of them close a circle. -/
theorem mem_verdicts_iff_circular (h : m.Agrees c) (hrecords : c.Records pairs)
    (hacyclic : ¬ Circular pairs)
    (hlive : ∀ s ∈ submissions, ∀ event ∈ s.signal.toList ++ s.waits,
      (c.current event).isSome = true) :
    (∃ report, .error (.deadlock report) ∈ m.verdicts (submissions.map .submitted)) ↔
      Circular ((submissions.flatMap fun s => dependencies s.signal s.waits) ++ pairs) := by
  induction submissions generalizing m c pairs with
  | nil =>
    refine iff_of_false ?_ hacyclic
    rintro ⟨report, hreport⟩
    exact List.not_mem_nil hreport
  | cons s submissions ih =>
    obtain ⟨hs, hlive⟩ := List.forall_mem_cons.1 hlive
    obtain ⟨hverdict, hagrees⟩ := notify_agrees h (.submitted s)
    have hcurrent : (c.heed (.submitted s)).2.current = c.current :=
      (c.append_fields s.signal s.waits).1
    have hpairs : ∀ p,
        p ∈ ((s :: submissions).flatMap fun s => dependencies s.signal s.waits) ++ pairs ↔
          p ∈ (submissions.flatMap fun s => dependencies s.signal s.waits) ++
            (dependencies s.signal s.waits ++ pairs) := by
      intro p
      simp only [List.flatMap_cons, List.mem_append]
      tauto
    have hcircular :
        Circular (((s :: submissions).flatMap fun s => dependencies s.signal s.waits) ++ pairs) ↔
          Circular ((submissions.flatMap fun s => dependencies s.signal s.waits) ++
            (dependencies s.signal s.waits ++ pairs)) :=
      ⟨.mono fun p hp => (hpairs p).1 hp, .mono fun p hp => (hpairs p).2 hp⟩
    rw [List.map_cons, verdicts, hcircular]
    have hsignal : ∀ event ∈ s.signal, (c.current event).isSome = true := fun event he =>
      hs event (List.mem_append_left _ (Option.mem_toList.2 he))
    rcases hrecords.append hacyclic hsignal
        fun event he => hs event (List.mem_append_right _ he) with
      ⟨hnone, hacyclic, hrecords⟩ | ⟨⟨event, hrefused⟩, hclosed⟩
    · have hok : (Observer.notify m (.submitted s)).verdict = .ok () :=
        Verdict.refusal?_eq_none.1 (hverdict.trans hnone)
      rw [← ih hagrees hrecords hacyclic (by rwa [hcurrent])]
      refine exists_congr fun report => ?_
      simp [hok]
    · obtain ⟨report, hreport, -⟩ := Verdict.refusal?_eq_deadlock.1 (hverdict.trans hrefused)
      refine iff_of_true ⟨report, ?_⟩ (hclosed.mono (List.subset_append_right _ _))
      rw [hreport]
      exact List.mem_cons_self

/-! ## Other orders -/

/-- The list `others` has the submissions of the first one, in any order and with their waits in any
order. -/
def Rearranged (submissions others : List Submission) : Prop :=
  ∃ permuted, submissions.Perm permuted ∧
    List.Forall₂ (fun s other => ∃ waits, s.waits.Perm waits ∧ other = s.waitingOn waits) permuted
      others

/-- What does not depend on the order of waits is the same for rearranged submissions. -/
theorem Rearranged.mem_flatMap {α : Type} {f : Submission → List α} {others : List Submission}
    (h : Rearranged submissions others)
    (hf : ∀ (s : Submission) (waits : List EventHandle), s.waits.Perm waits →
      ∀ x, x ∈ f (s.waitingOn waits) ↔ x ∈ f s) (x : α) :
    x ∈ others.flatMap f ↔ x ∈ submissions.flatMap f := by
  obtain ⟨permuted, hperm, hwaits⟩ := h
  rw [(hperm.flatMap_right f).mem_iff]
  clear hperm
  induction hwaits with
  | nil => exact Iff.rfl
  | cons hs _ ih =>
    obtain ⟨waits, hwaits, rfl⟩ := hs
    rw [List.flatMap_cons, List.flatMap_cons, List.mem_append, List.mem_append, ih, hf _ _ hwaits]

/-- After nothing but creations, some submission of the created events is refused for a deadlock if
and only if the events can be followed in a circle, from one that a submission waits on to one that
it signals.  So it makes no difference in which order the submissions come, and in which order each
of them waits. -/
theorem deadlock_iff_circle (settings : MonitorSettings) (events : List EventHandle)
    (submissions : List Submission)
    (hevents : ∀ s ∈ submissions, s.signal.toList ++ s.waits ⊆ events) :
    let m := (fresh settings).afterAll (events.map .created)
    let deadlocks := fun submissions : List Submission =>
      ∃ report, .error (.deadlock report) ∈ m.verdicts (submissions.map .submitted)
    (deadlocks submissions ↔ ∃ event, TransGen
      (fun wait signal => ∃ s ∈ submissions, s.signal = some signal ∧ wait ∈ s.waits) event event) ∧
    ∀ others, Rearranged submissions others → (deadlocks submissions ↔ deadlocks others) := by
  intro m deadlocks
  let pairs := fun submissions : List Submission =>
    submissions.flatMap fun s => dependencies s.signal s.waits
  obtain ⟨c, hagrees, hnone, hcreated⟩ := agrees_created (agrees_fresh settings) events
  have hrecords : c.Records [] := by
    obtain ⟨node, htracks⟩ := hagrees
    exact ⟨htracks.current_inj, nofun, fun hwait => by rw [hnone] at hwait; cases hwait⟩
  have hcircular : ∀ submissions : List Submission,
      (∀ s ∈ submissions, s.signal.toList ++ s.waits ⊆ events) →
        (deadlocks submissions ↔ Circular (pairs submissions)) := by
    intro submissions hevents
    have h := mem_verdicts_iff_circular hagrees hrecords Circular.not_nil
      fun s hs event he => hcreated event (Or.inl (hevents s hs he))
    rwa [List.append_nil] at h
  constructor
  · rw [hcircular submissions hevents]
    have hpairs : (fun wait signal => (wait, signal) ∈ pairs submissions) =
        fun wait signal => ∃ s ∈ submissions, s.signal = some signal ∧ wait ∈ s.waits := by
      funext wait signal
      simp only [pairs, List.mem_flatMap, mem_dependencies]
    rw [Circular, hpairs]
  · intro others hothers
    have hmentioned : ∀ s ∈ others, s.signal.toList ++ s.waits ⊆ events := by
      intro s hs event he
      have hm : event ∈ others.flatMap fun s => s.signal.toList ++ s.waits :=
        List.mem_flatMap.2 ⟨s, hs, he⟩
      rw [hothers.mem_flatMap fun s waits hwaits x => by
        simp [Submission.waitingOn, hwaits.mem_iff]] at hm
      obtain ⟨s, hs, he⟩ := List.mem_flatMap.1 hm
      exact hevents s hs he
    have hpairs : ∀ p, p ∈ pairs others ↔ p ∈ pairs submissions :=
      hothers.mem_flatMap fun s waits hwaits p => by
        rw [mem_dependencies, mem_dependencies]
        exact and_congr_right fun _ => hwaits.symm.mem_iff
    rw [hcircular submissions hevents, hcircular others hmentioned]
    exact ⟨.mono fun p hp => (hpairs p).2 hp, .mono fun p hp => (hpairs p).1 hp⟩

/-- Three operations that wait for each other in a circle: the third is refused, and so is some
operation whatever their order. -/
theorem deadlock_iff_circle_of_three :
    let first : Submission := { operation := .barrier, signal := some ⟨1⟩, waits := [⟨2⟩] }
    let second : Submission := { operation := .barrier, signal := some ⟨2⟩, waits := [⟨3⟩] }
    let third : Submission := { operation := .barrier, signal := some ⟨3⟩, waits := [⟨1⟩, ⟨1⟩] }
    let m := (fresh {}).afterAll ([⟨1⟩, ⟨2⟩, ⟨3⟩].map .created)
    ∀ others, Rearranged [first, second, third] others →
      ∃ report, .error (.deadlock report) ∈ m.verdicts (others.map .submitted) := by
  intro first second third m others hothers
  obtain ⟨hcircle, hothers'⟩ := deadlock_iff_circle {} [⟨1⟩, ⟨2⟩, ⟨3⟩] [first, second, third]
    (by decide)
  refine (hothers' others hothers).1 (hcircle.2 ⟨⟨1⟩, ?_⟩)
  refine .head (b := ⟨3⟩) ⟨third, by decide, rfl, by decide⟩ ?_
  refine .head (b := ⟨2⟩) ⟨second, by decide, rfl, by decide⟩ ?_
  exact .single ⟨first, by decide, rfl, by decide⟩

end Monitor

end WaitFor
