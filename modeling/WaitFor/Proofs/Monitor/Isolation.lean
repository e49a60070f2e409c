import Mathlib.Data.Fintype.BigOperators
import WaitFor.Proofs.Monitor.Copies
import WaitFor.Proofs.Monitor.Growth

/-! # Unrelated runs on one monitor

Runs that mention no event in common may share one monitor, in whatever order their notices come.
Each of them finds a copy there of the monitor that it would have had alone (`Monitor.Combines`), so
it gets the same verdicts, and the sizes add up. -/

namespace WaitFor

open Relation

/-- The entries that stand under a key, in order. -/
def ofKey {ι α : Type} [DecidableEq ι] (i : ι) (entries : List (ι × α)) : List α :=
  (entries.filter fun entry => entry.1 = i).map Prod.snd

theorem ofKey_cons {ι α : Type} [DecidableEq ι] (i j : ι) (x : α) (entries : List (ι × α)) :
    ofKey i ((j, x) :: entries) = if j = i then x :: ofKey i entries else ofKey i entries := by
  rw [ofKey, List.filter_cons]
  by_cases h : j = i
  · simp [h, ofKey]
  · simp [h, ofKey]

namespace Monitor

variable {m : Monitor} {s : Submission} {x : NodeId} {report : DeadlockReport} {notice : Notice}

/-! ## Nodes in verdicts -/

/-- A report names nodes of the state that it was made in. -/
theorem Coherent.contains_of_mem_nodes (h : m.Coherent)
    (hrefused : (m.submit s).1 = .error (.deadlock report)) (hx : x ∈ report.nodes) :
    (m.submit s).2.graph.contains x = true := by
  obtain ⟨event, signaler, waiter, hwaiter, hbound, hevent, rfl, hadm⟩ := h.submit_refused hrefused
  obtain ⟨nodes, hfaithful⟩ := (h.submit s).faithful hwaiter hbound hevent hadm
  have hmem : x ∈ nodes := by
    rcases List.mem_cons.1 hx with rfl | hx
    · exact List.mem_of_getLast? hfaithful.getLast?
    · rcases List.mem_cons.1 hx with rfl | hx
      · exact List.mem_of_head? hfaithful.head?
      · rw [hfaithful.path, List.map_map, List.mem_map] at hx
        obtain ⟨y, hy, rfl⟩ := hx
        exact List.mem_of_mem_take hy
  obtain ⟨act, -, hact, -⟩ := hfaithful.recorded x hmem
  exact (h.submit s).claims.contains_of_record hact

/-- In a verdict, only the names of nodes matter that are allocated by then. -/
theorem Coherent.renamed_verdict {f f' : NodeId → NodeId} (h : m.Coherent)
    (hf : ∀ x, (Observer.notify m notice).state.graph.contains x = true → f' x = f x) :
    (Observer.notify m notice).verdict.renamed f' =
      (Observer.notify m notice).verdict.renamed f := by
  cases notice with
  | submitted s =>
    show (m.submit s).1.renamed f' = (m.submit s).1.renamed f
    rcases hverdict : (m.submit s).1 with (_ | _ | report) | ⟨⟩
    · rfl
    · rfl
    · refine congrArg (Except.error ∘ Violation.deadlock) (DeadlockReport.renamed_congr ?_)
      exact fun x hx => hf x (h.contains_of_mem_nodes hverdict hx)
    · rfl
  | _ => rfl

/-! ## Runs side by side -/

section Interleaving

variable {ι : Type} [Fintype ι] [DecidableEq ι] {mine : ι → EventHandle → Prop}
  {f : ι → NodeId → NodeId} {own : ι → Monitor} {shared : Monitor}

/-- The monitor `shared` holds copies of all the monitors `own`, for the events that are theirs, and
nothing else. -/
structure Combines (mine : ι → EventHandle → Prop) (f : ι → NodeId → NodeId) (own : ι → Monitor)
    (shared : Monitor) : Prop where
  coherent : ∀ i, (own i).Coherent
  coherent_shared : shared.Coherent
  embeds : ∀ i, Embeds (mine i) (f i) (own i) shared
  size : shared.size = ∑ i, (own i).size

namespace Combines

omit [DecidableEq ι] in
/-- Fresh monitors combine to a fresh one. -/
theorem fresh (mine : ι → EventHandle → Prop) (settings : MonitorSettings) :
    Combines mine (fun _ => id) (fun _ => fresh settings) (fresh settings) where
  coherent _ := .fresh settings
  coherent_shared := .fresh settings
  embeds i := .fresh (mine i) settings
  size := (Finset.sum_eq_zero fun _ _ => rfl).symm

/-- One notice of the run `j` changes the copy of its own monitor, and no other copy. -/
theorem notify (h : Combines mine f own shared)
    (hdisjoint : ∀ i j, i ≠ j → ∀ event, mine i event → ¬ mine j event) {j : ι}
    (hmine : ∀ event ∈ notice.events, mine j event) :
    ∃ f' : ι → NodeId → NodeId, (∀ i x, (own i).graph.contains x = true → f' i x = f i x) ∧
      Combines mine f' (Function.update own j (Observer.notify (own j) notice).state)
        (Observer.notify shared notice).state ∧
      (Observer.notify shared notice).verdict =
        (Observer.notify (own j) notice).verdict.renamed (f' j) := by
  obtain ⟨g, hagree, hinj, haligned⟩ := (h.embeds j).graph.align
  have hstep : InStep (mine j) g (∑ i ∈ Finset.univ.erase j, (own i).size) (own j) shared := by
    refine ⟨(h.embeds j).congr (h.coherent j) hagree hinj, haligned, h.size.trans ?_⟩
    exact (Finset.add_sum_erase _ (fun i => (own i).size) (Finset.mem_univ j)).symm
  obtain ⟨hverdict, hstep⟩ := hstep.notify (h.coherent j) h.coherent_shared hmine
  refine ⟨Function.update f j g, fun i x hx => ?_, ⟨fun i => ?_, ?_, fun i => ?_, ?_⟩, ?_⟩
  · by_cases hij : i = j
    · subst hij
      rw [Function.update_self, hagree x hx]
    · rw [Function.update_of_ne hij]
  · by_cases hij : i = j
    · subst hij
      rw [Function.update_self]
      exact (h.coherent i).notify notice
    · rw [Function.update_of_ne hij]
      exact h.coherent i
  · exact h.coherent_shared.notify notice
  · by_cases hij : i = j
    · subst hij
      rw [Function.update_self, Function.update_self]
      exact hstep.toEmbeds
    · rw [Function.update_of_ne hij, Function.update_of_ne hij]
      refine (h.embeds i).notify_other h.coherent_shared fun event he => ?_
      exact hdisjoint j i (Ne.symm hij) event (hmine event he)
  · rw [hstep.size, ← Finset.add_sum_erase _ _ (Finset.mem_univ j), Function.update_self]
    congr 1
    refine Finset.sum_congr rfl fun i hi => ?_
    rw [Function.update_of_ne (Finset.ne_of_mem_erase hi)]
  · rw [Function.update_self, hverdict]

/-- Whatever the order of the notices, each run gets the verdicts that it would get alone. -/
theorem run (h : Combines mine f own shared)
    (hdisjoint : ∀ i j, i ≠ j → ∀ event, mine i event → ¬ mine j event)
    (merged : List (ι × Notice))
    (hmine : ∀ entry ∈ merged, ∀ event ∈ entry.2.events, mine entry.1 event) :
    ∃ f' : ι → NodeId → NodeId, (∀ i x, (own i).graph.contains x = true → f' i x = f i x) ∧
      Combines mine f' (fun i => (own i).afterAll (ofKey i merged))
        (shared.afterAll (merged.map Prod.snd)) ∧
      ∀ i, ofKey i ((merged.map Prod.fst).zip (shared.verdicts (merged.map Prod.snd))) =
        ((own i).verdicts (ofKey i merged)).map (Verdict.renamed (f' i)) := by
  induction merged generalizing f own shared with
  | nil => exact ⟨f, fun _ _ _ => rfl, h, fun _ => rfl⟩
  | cons entry merged ih =>
    obtain ⟨j, notice⟩ := entry
    obtain ⟨hhead, htail⟩ := List.forall_mem_cons.1 hmine
    obtain ⟨f₁, hagree₁, h₁, hverdict⟩ := h.notify hdisjoint hhead
    obtain ⟨f₂, hagree₂, h₂, hverdicts⟩ := ih h₁ htail
    have hown : ∀ i, (Function.update own j (Observer.notify (own j) notice).state i).afterAll
        (ofKey i merged) = (own i).afterAll (ofKey i ((j, notice) :: merged)) := by
      intro i
      rw [ofKey_cons]
      by_cases hij : i = j
      · subst hij
        rw [Function.update_self, if_pos rfl]
        rfl
      · rw [Function.update_of_ne hij, if_neg (Ne.symm hij)]
    refine ⟨f₂, fun i x hx => ?_, ?_, fun i => ?_⟩
    · refine (hagree₂ i x ?_).trans (hagree₁ i x hx)
      by_cases hij : i = j
      · subst hij
        rw [Function.update_self]
        exact ((h.coherent i).grows_notify notice).contains hx
      · rw [Function.update_of_ne hij]
        exact hx
    · rw [funext hown] at h₂
      exact h₂
    · have hi := hverdicts i
      rw [List.map_cons, List.map_cons, verdicts, List.zip_cons_cons, ofKey_cons, ofKey_cons]
      by_cases hij : i = j
      · subst hij
        rw [Function.update_self] at hi
        have hagree : ∀ x, (Observer.notify (own i) notice).state.graph.contains x = true →
            f₂ i x = f₁ i x := by
          intro x hx
          refine hagree₂ i x ?_
          rw [Function.update_self]
          exact hx
        rw [if_pos rfl, if_pos rfl, verdicts, List.map_cons, hverdict, hi,
          (h.coherent i).renamed_verdict hagree]
      · rw [Function.update_of_ne hij] at hi
        rw [if_neg (Ne.symm hij), if_neg (Ne.symm hij), hi]

end Combines

/-- Runs without a common event, told to one monitor in any order that keeps the order of each run:
every run gets the verdicts that it would get on a monitor of its own, with other names for the
nodes, and the sizes of the monitors add up. -/
theorem isolated_of_disjoint (settings : MonitorSettings) (runs : ι → List Notice)
    (merged : List (ι × Notice)) (hmerged : ∀ i, ofKey i merged = runs i)
    (hdisjoint : ∀ i j, i ≠ j → ∀ notice ∈ runs i, ∀ other ∈ runs j,
      notice.events.Disjoint other.events) :
    let m := fresh settings
    (∀ i, ∃ rename : NodeId → NodeId, Function.Injective rename ∧
      ofKey i ((merged.map Prod.fst).zip (m.verdicts (merged.map Prod.snd))) =
        (m.verdicts (runs i)).map (Verdict.renamed rename)) ∧
    (m.afterAll (merged.map Prod.snd)).size = ∑ i, (m.afterAll (runs i)).size := by
  intro m
  let mine : ι → EventHandle → Prop := fun i event => ∃ notice ∈ runs i, event ∈ notice.events
  have hapart : ∀ i j, i ≠ j → ∀ event, mine i event → ¬ mine j event := by
    rintro i j hij event ⟨notice, hm, he⟩ ⟨other, ho, he'⟩
    exact hdisjoint i j hij notice hm other ho he he'
  have hmine : ∀ entry ∈ merged, ∀ event ∈ entry.2.events, mine entry.1 event := by
    intro entry hm event he
    refine ⟨entry.2, hmerged entry.1 ▸ ?_, he⟩
    exact List.mem_map_of_mem (List.mem_filter.2 ⟨hm, decide_eq_true rfl⟩)
  obtain ⟨f, -, hcombines, hverdicts⟩ := (Combines.fresh mine settings).run hapart merged hmine
  simp only [hmerged] at hcombines hverdicts
  exact ⟨fun i => ⟨f i, (hcombines.embeds i).graph.injective, hverdicts i⟩, hcombines.size⟩

end Interleaving

/-- An operation that waits on its own event and an operation that waits on nothing, each in a run
of its own: the refusal names another node than on a monitor of its own. -/
theorem isolated_of_disjoint_of_pair :
    let m := fresh {}
    let own : Submission := { operation := .barrier, signal := some ⟨1⟩, waits := [⟨1⟩] }
    let other : Submission := { operation := .barrier, signal := some ⟨2⟩ }
    let merged : List (Bool × Notice) := [(false, .created ⟨2⟩), (true, .created ⟨1⟩),
      (false, .submitted other), (true, .submitted own)]
    (∃ rename : NodeId → NodeId, Function.Injective rename ∧ rename ⟨0⟩ = ⟨1⟩ ∧
      ofKey true ((merged.map Prod.fst).zip (m.verdicts (merged.map Prod.snd))) =
        (m.verdicts [.created ⟨1⟩, .submitted own]).map (Verdict.renamed rename)) ∧
    (m.afterAll (merged.map Prod.snd)).size =
      (m.afterAll [.created ⟨1⟩, .submitted own]).size +
        (m.afterAll [.created ⟨2⟩, .submitted other]).size := by
  intro m own other merged
  let runs : Bool → List Notice := fun i =>
    if i then [.created ⟨1⟩, .submitted own] else [.created ⟨2⟩, .submitted other]
  obtain ⟨hverdicts, hsize⟩ := isolated_of_disjoint {} runs merged (by decide)
    (by simp [runs, own, other, Notice.events])
  obtain ⟨rename, hinj, hrename⟩ := hverdicts true
  refine ⟨⟨rename, hinj, ?_, hrename⟩, ?_⟩
  · let waiterOf : Verdict → Option NodeId := fun verdict =>
      match verdict with
      | .ok () => none
      | .error (.unknownWaitEvent ..) => none
      | .error (.unknownSignalEvent ..) => none
      | .error (.deadlock report) => some report.waiter.node
    have hwaiters : [none, some (⟨1⟩ : NodeId)] = [none, some (rename ⟨0⟩)] :=
      congrArg (List.map waiterOf) hrename
    simpa using hwaiters.symm
  · rw [Fintype.sum_bool] at hsize
    exact hsize

end Monitor

end WaitFor
