import Mathlib.Algebra.BigOperators.Group.Finset.Basic
import WaitFor.Proofs.Graph.Renaming
import WaitFor.Proofs.Monitor.Reports

/-! # Copies of a monitor

`Monitor.Embeds mine f own shared` says that the monitor `shared` holds a copy of the monitor `own`:
what `own` knows of the events in `mine`, and the nodes of `own` under the names that `f` gives
them. Beside it `shared` may know other events and nodes.  A notice about other events leaves the
copy as it is (`Embeds.notify_other`); one about events in `mine` that both monitors are told
changes the copy as the original, and is answered alike (`Mirrors.notify`).

The names of the nodes that `own` is still to allocate are chosen before each of its notices, when
it is known which nodes `shared` has by then. -/

namespace WaitFor

open Relation

/-! ## Other names for nodes -/

/-- The same binding, with another name for its node. -/
def Binding.renamed (f : NodeId → NodeId) : Binding → Binding
  | unassigned => unassigned
  | pending node => pending (f node)
  | bound node => bound (f node)

/-- The same summary, with another name for the node. -/
def ActionSummary.renamed (f : NodeId → NodeId) (summary : ActionSummary) : ActionSummary :=
  { summary with node := f summary.node }

/-- The same report, with other names for its nodes. -/
def DeadlockReport.renamed (f : NodeId → NodeId) (report : DeadlockReport) : DeadlockReport :=
  { report with
    signaler := report.signaler.renamed f
    waiter := report.waiter.renamed f
    path := report.path.map (ActionSummary.renamed f) }

/-- The same violation, with other names for the nodes of its report. -/
def Violation.renamed (f : NodeId → NodeId) : Violation → Violation
  | deadlock report => deadlock (report.renamed f)
  | violation => violation

/-- The same verdict, with other names for the nodes of its report. -/
def Verdict.renamed (f : NodeId → NodeId) (verdict : Verdict) : Verdict :=
  verdict.mapError (Violation.renamed f)

/-- The nodes that a report names. -/
def DeadlockReport.nodes (report : DeadlockReport) : List NodeId :=
  report.signaler.node :: report.waiter.node :: report.path.map ActionSummary.node

variable {f f' : NodeId → NodeId} {mine : EventHandle → Prop} {event : EventHandle} {b : Binding}
  {x y : NodeId}

/-- Only the name of the node of a binding matters. -/
theorem Binding.renamed_congr (h : ∀ x ∈ b.node?, f' x = f x) : b.renamed f' = b.renamed f := by
  cases b with
  | unassigned => rfl
  | pending node => exact congrArg pending (h node rfl)
  | bound node => exact congrArg bound (h node rfl)

/-- Only the names of the nodes in a report matter. -/
theorem DeadlockReport.renamed_congr {report : DeadlockReport}
    (h : ∀ x ∈ report.nodes, f' x = f x) : report.renamed f' = report.renamed f := by
  have hsummary : ∀ summary : ActionSummary, summary.node ∈ report.nodes →
      summary.renamed f' = summary.renamed f := by
    intro summary hm
    rw [ActionSummary.renamed, h _ hm, ActionSummary.renamed]
  have hpath : report.path.map (ActionSummary.renamed f') =
      report.path.map (ActionSummary.renamed f) := by
    refine List.map_congr_left fun summary hm => hsummary summary ?_
    exact List.mem_cons_of_mem _ (List.mem_cons_of_mem _ (List.mem_map_of_mem hm))
  rw [renamed, renamed, hpath, hsummary report.signaler List.mem_cons_self,
    hsummary report.waiter (List.mem_cons_of_mem _ List.mem_cons_self)]

/-! ## Sizes -/

instance : Add MonitorSize where
  add a b := ⟨a.liveEvents + b.liveEvents, a.nodes + b.nodes, a.edges + b.edges,
    a.actions + b.actions⟩

instance : Zero MonitorSize where
  zero := ⟨0, 0, 0, 0⟩

instance : AddCommMonoid MonitorSize where
  add_assoc _ _ _ := (MonitorSize.mk.injEq ..).mpr
    ⟨Nat.add_assoc .., Nat.add_assoc .., Nat.add_assoc .., Nat.add_assoc ..⟩
  zero_add _ := (MonitorSize.mk.injEq ..).mpr
    ⟨Nat.zero_add _, Nat.zero_add _, Nat.zero_add _, Nat.zero_add _⟩
  add_zero _ := rfl
  add_comm _ _ := (MonitorSize.mk.injEq ..).mpr
    ⟨Nat.add_comm .., Nat.add_comm .., Nat.add_comm .., Nat.add_comm ..⟩
  nsmul := nsmulRec

namespace Monitor

variable {own own' shared shared' m : Monitor} {rest : MonitorSize} {s : Submission}
  {waiter signaler : NodeId} {waits : List EventHandle} {text : String}
  {signal : Option EventHandle}

/-- Sizes add up if they do so number by number. -/
theorem size_eq_add_iff : shared.size = own.size + rest ↔
    shared.live.size = own.live.size + rest.liveEvents ∧
      shared.graph.nodeCount = own.graph.nodeCount + rest.nodes ∧
        shared.graph.edgeCount = own.graph.edgeCount + rest.edges ∧
          shared.actions.size = own.actions.size + rest.actions :=
  Iff.of_eq (MonitorSize.mk.injEq ..)

/-! ## Copies -/

/-- `shared` holds a copy of what `own` knows of the events in `mine`, with the names for its nodes
that `f` gives; no other event has a node of the copy. -/
structure Embeds (mine : EventHandle → Prop) (f : NodeId → NodeId) (own shared : Monitor) :
    Prop where
  settings : shared.settings = own.settings
  graph : own.graph.Embeds f shared.graph
  get? : ∀ {x}, own.graph.contains x = true → shared.actions.get? (f x) = own.actions.get? x
  binding? : ∀ {event}, mine event →
    shared.live.binding? event = (own.live.binding? event).map (Binding.renamed f)
  apart : ∀ {event x}, own.graph.contains x = true → shared.live.node? event = some (f x) →
    mine event

/-- The node is none of the copy's. -/
def Outside (f : NodeId → NodeId) (own : Monitor) (x : NodeId) : Prop :=
  ∀ y, own.graph.contains y = true → f y ≠ x

namespace Embeds

/-- Fresh monitors are copies of each other. -/
theorem fresh (mine : EventHandle → Prop) (settings : MonitorSettings) :
    Embeds mine id (fresh settings) (fresh settings) where
  settings := rfl
  graph := .id _
  get? _ := rfl
  binding? _ := rfl
  apart hx := by cases hx

/-- Only the names of allocated nodes matter. -/
theorem congr (h : Embeds mine f own shared) (hown : own.Coherent)
    (hf : ∀ x, own.graph.contains x = true → f' x = f x) (hinj : Function.Injective f') :
    Embeds mine f' own shared where
  settings := h.settings
  graph := h.graph.congr hown.claims.sound hf hinj
  get? hx := by rw [hf _ hx, h.get? hx]
  binding? {event} he := by
    rw [h.binding? he]
    refine Option.map_congr fun b hb => (Binding.renamed_congr fun x hx => hf x ?_).symm
    exact hown.claims.allocated ((LiveEvents.node?_of_binding? hb).trans hx)
  apart hx he := h.apart hx (hf _ hx ▸ he)

/-- The own events are live in both monitors or in neither. -/
theorem contains (h : Embeds mine f own shared) (he : mine event) :
    shared.live.contains event = own.live.contains event := by
  show (shared.live.binding? event).isSome = (own.live.binding? event).isSome
  rw [h.binding? he, Option.isSome_map]

/-- A new node is no copy. -/
theorem outside_new (h : Embeds mine f own shared) : Outside f own shared.graph.addNode.1 :=
  fun _ hy heq => shared.graph.not_contains_new (heq ▸ h.graph.contains hy)

/-- The nodes of other events are no copies. -/
theorem outside_of_node? (h : Embeds mine f own shared) (he : ¬ mine event)
    (hx : shared.live.node? event = some x) : Outside f own x :=
  fun _ hy heq => he (h.apart hy (heq ▸ hx))

/-! ## Notices about other events -/

/-- Binding another event outside the copies changes nothing of them. -/
theorem bind_other (h : Embeds mine f own shared) (he : ¬ mine event)
    (hb : ∀ x ∈ b.node?, Outside f own x) :
    Embeds mine f own { shared with live := shared.live.bind event b } := by
  refine { h with binding? := fun {other} ho => ?_, apart := fun {other y} hy ho => ?_ }
  · rw [LiveEvents.binding?_bind, if_neg, h.binding? ho]
    rintro rfl
    exact he ho
  · rw [LiveEvents.node?_bind] at ho
    split at ho
    · exact absurd rfl (hb _ ho y hy)
    · exact h.apart hy ho

/-- Destroying another event changes nothing of the copies. -/
theorem destroy_other (h : Embeds mine f own shared) (he : ¬ mine event) :
    Embeds mine f own { shared with live := (shared.live.destroy event).2 } := by
  refine { h with binding? := fun {other} ho => ?_, apart := fun {other y} hy ho => ?_ }
  · rw [LiveEvents.binding?_destroy, if_neg, h.binding? ho]
    rintro rfl
    exact he ho
  · rw [LiveEvents.node?_destroy] at ho
    split at ho
    · cases ho
    · exact h.apart hy ho

/-- A node for another event changes nothing of the copies. -/
theorem addNode_other (h : Embeds mine f own shared) :
    Embeds mine f own { shared with graph := shared.graph.addNode.2 } :=
  { h with graph := h.graph.addNode_other }

/-- A record outside the copies changes nothing of them. -/
theorem record_other (h : Embeds mine f own shared) (hx : Outside f own x) :
    Embeds mine f own { shared with actions := shared.actions.record x text signal } := by
  refine { h with get? := fun {y} hy => ?_ }
  rw [Actions.get?_record, if_neg (hx y hy).symm, h.get? hy]

/-- An edge from outside the copies changes nothing of them. -/
theorem insertEdge_other (h : Embeds mine f own shared) (hshared : shared.graph.Sound)
    (hx : Outside f own x) :
    Embeds mine f own { shared with graph := (shared.graph.insertEdge x y).2 } :=
  { h with graph := h.graph.insertEdge_other hshared hx }

/-- An operation that signals no own event comes to a node outside. -/
theorem claiming_other (h : Embeds mine f own shared) (hs : ∀ event ∈ s.signal, ¬ mine event)
    (hclaim : Claiming shared s waiter shared') : Embeds mine f own shared' := by
  have hnew := h.outside_new
  cases hclaim with
  | anonymous => exact h.addNode_other.record_other hnew
  | shared => exact h
  | placeholder hsignal hb =>
    have he := hs _ hsignal
    have hx := h.outside_of_node? he (LiveEvents.node?_of_binding? hb)
    exact (h.bind_other he (by rintro _ ⟨⟩; exact hx)).record_other hx
  | first hsignal =>
    have hbound := h.addNode_other.bind_other (hs _ hsignal) (b := .bound shared.graph.addNode.1)
      (by rintro _ ⟨⟩; exact hnew)
    exact hbound.record_other hnew

/-- A wait on another event finds a node outside. -/
theorem waitNode?_other {live : LiveEvents} {graph : Graph} (h : Embeds mine f own shared)
    (hshared : shared.graph.Sound) (he : ¬ mine event)
    (hwait : shared.live.waitNode? event shared.graph = some (signaler, live, graph)) :
    Embeds mine f own { shared with live, graph } ∧ graph.Sound ∧ Outside f own signaler := by
  rcases LiveEvents.waitNode?_cases hwait with ⟨hbinding, rfl, rfl⟩ | ⟨-, rfl, rfl, rfl⟩
  · exact ⟨h, hshared, h.outside_of_node? he (LiveEvents.node?_eq_some_iff.2 hbinding)⟩
  · have hx := h.outside_new
    exact ⟨h.addNode_other.bind_other he (by rintro _ ⟨⟩; exact hx), hshared.addNode, hx⟩

/-- Waits on other events change nothing of the copies. -/
theorem insertWaits_other (h : Embeds mine f own shared) (hshared : shared.graph.Sound)
    (hwaits : ∀ event ∈ waits, ¬ mine event) :
    Embeds mine f own (insertWaits s waiter shared waits).2 := by
  induction waits generalizing shared with
  | nil => exact h
  | cons event waits ih =>
    obtain ⟨he, hwaits⟩ := List.forall_mem_cons.1 hwaits
    cases hwait : shared.live.waitNode? event shared.graph with
    | none =>
      rw [insertWaits_of_unknown hwait]
      exact h
    | some found =>
      obtain ⟨signaler, live, graph⟩ := found
      obtain ⟨h, hsound, hx⟩ := h.waitNode?_other hshared he hwait
      have hnext := h.insertEdge_other (y := waiter) hsound hx
      cases haccept : (graph.insertEdge signaler waiter).1 with
      | false =>
        rw [insertWaits_of_refused hwait haccept]
        exact hnext
      | true =>
        rw [insertWaits_of_accepted hwait haccept]
        exact ih hnext (hsound.insertEdge signaler waiter) hwaits

end Embeds

end Monitor

/-- The events that a notice mentions. -/
def Notice.events : Notice → List EventHandle
  | created event => [event]
  | destroyed event => [event]
  | hostReset event => [event]
  | submitted s => s.signal.toList ++ s.waits

namespace Monitor

variable {own shared : Monitor} {notice : Notice}

/-- A notice about other events leaves the copy as it is. -/
theorem Embeds.notify_other (h : Embeds mine f own shared) (hshared : shared.Coherent)
    (hother : ∀ event ∈ notice.events, ¬ mine event) :
    Embeds mine f own (Observer.notify shared notice).state := by
  cases notice with
  | created event => exact h.bind_other (hother event List.mem_cons_self) nofun
  | destroyed event => exact h.destroy_other (hother event List.mem_cons_self)
  | hostReset event =>
    show Embeds mine f own { shared with live := (shared.live.reset event).2 }
    rw [LiveEvents.reset]
    split
    · exact h.bind_other (hother event List.mem_cons_self) nofun
    · exact h
  | submitted s =>
    show Embeds mine f own (shared.submit s).2
    rw [submit]
    split
    · exact h
    · split
      · exact h
      · next waiter shared' hclaim =>
        have hs : ∀ event ∈ s.signal, ¬ mine event := fun event he =>
          hother event (List.mem_append_left _ (Option.mem_toList.2 he))
        refine (h.claiming_other hs (claimNode_eq_ok_iff.1 hclaim)).insertWaits_other
          (hshared.claimNode hclaim).1.claims.sound fun event he => ?_
        exact hother event (List.mem_append_right _ he)

/-! ## Notices about the events of the copy -/

/-- The copy is ready for a notice: the next node of `own` is given the name of the next node of
`shared`, which exceeds `own` by the size `rest`. -/
structure InStep (mine : EventHandle → Prop) (f : NodeId → NodeId) (rest : MonitorSize)
    (own shared : Monitor) : Prop extends Embeds mine f own shared where
  aligned : Graph.Aligned f own.graph shared.graph
  size : shared.size = own.size + rest

namespace InStep

variable {live : LiveEvents} {graph : Graph}

/-- Binding an own event in both monitors keeps them in step. -/
theorem bind (h : InStep mine f rest own shared) (he : mine event) (b : Binding) :
    InStep mine f rest { own with live := own.live.bind event b }
      { shared with live := shared.live.bind event (b.renamed f) } where
  toEmbeds := by
    refine { h.toEmbeds with binding? := fun {other} ho => ?_, apart := fun {other x} hx ho => ?_ }
    · rw [LiveEvents.binding?_bind, LiveEvents.binding?_bind]
      split
      · rfl
      · exact h.binding? ho
    · rw [LiveEvents.node?_bind] at ho
      split at ho
      · next heq => exact heq ▸ he
      · exact h.apart hx ho
  aligned := h.aligned
  size := by
    obtain ⟨hlive, hrest⟩ := size_eq_add_iff.1 h.size
    refine size_eq_add_iff.2 ⟨?_, hrest⟩
    rw [LiveEvents.size_bind, LiveEvents.size_bind, h.contains he]
    split <;> omega

/-- Destroying an own event in both monitors keeps them in step. -/
theorem destroy (h : InStep mine f rest own shared) (he : mine event) :
    InStep mine f rest { own with live := (own.live.destroy event).2 }
      { shared with live := (shared.live.destroy event).2 } where
  toEmbeds := by
    refine { h.toEmbeds with binding? := fun {other} ho => ?_, apart := fun {other x} hx ho => ?_ }
    · rw [LiveEvents.binding?_destroy, LiveEvents.binding?_destroy]
      split
      · rfl
      · exact h.binding? ho
    · rw [LiveEvents.node?_destroy] at ho
      split at ho
      · cases ho
      · exact h.apart hx ho
  aligned := h.aligned
  size := by
    obtain ⟨hlive, hrest⟩ := size_eq_add_iff.1 h.size
    refine size_eq_add_iff.2 ⟨?_, hrest⟩
    rw [LiveEvents.size_destroy, LiveEvents.size_destroy, h.contains he]
    split
    · next hc =>
      have := LiveEvents.size_pos hc
      omega
    · exact hlive

/-- A node allocated in both monitors keeps them in step, and the new nodes are copies. -/
theorem addNode (h : InStep mine f rest own shared)
    (hown : Claims own.live own.graph own.actions)
    (hshared : Claims shared.live shared.graph shared.actions) :
    f own.graph.addNode.1 = shared.graph.addNode.1 ∧
      InStep mine f rest { own with graph := own.graph.addNode.2 }
        { shared with graph := shared.graph.addNode.2 } := by
  obtain ⟨hnew, hgraph, haligned⟩ := h.graph.addNode h.aligned
  refine ⟨hnew, { h.toEmbeds with
    graph := hgraph, get? := fun {x} hx => ?_, apart := fun {event x} hx he => ?_ }, haligned, ?_⟩
  · rcases Graph.contains_addNode.1 hx with hx | rfl
    · exact h.get? hx
    · exact (congrArg _ hnew).trans (hshared.get?_new.trans hown.get?_new.symm)
  · rcases Graph.contains_addNode.1 hx with hx | rfl
    · exact h.apart hx he
    · exact absurd (he.trans (congrArg some hnew)) (hshared.node?_ne_new event)
  · obtain ⟨hlive, hnodes, hrest⟩ := size_eq_add_iff.1 h.size
    refine size_eq_add_iff.2 ⟨hlive, ?_, hrest⟩
    rw [Graph.nodeCount_addNode, Graph.nodeCount_addNode]
    omega

/-- A record in both monitors keeps them in step. -/
theorem record (h : InStep mine f rest own shared) (text : String) (signal : Option EventHandle)
    (hx : own.graph.contains x = true) :
    InStep mine f rest { own with actions := own.actions.record x text signal }
      { shared with actions := shared.actions.record (f x) text signal } where
  toEmbeds := by
    refine { h.toEmbeds with get? := fun {y} hy => ?_ }
    rw [Actions.get?_record, Actions.get?_record]
    by_cases hxy : x = y
    · rw [if_pos hxy, if_pos (congrArg f hxy)]
    · rw [if_neg hxy, if_neg (h.graph.injective.ne hxy), h.get? hy]
  aligned := h.aligned
  size := by
    obtain ⟨hlive, hnodes, hedges, hactions⟩ := size_eq_add_iff.1 h.size
    refine size_eq_add_iff.2 ⟨hlive, hnodes, hedges, ?_⟩
    rw [Actions.size_record, Actions.size_record, h.get? hx]
    split <;> omega

/-- An edge is accepted in both monitors or in neither, and keeps them in step. -/
theorem insertEdge (h : InStep mine f rest own shared) (hown : own.graph.Sound)
    (hshared : shared.graph.Sound) (hx : own.graph.contains x = true)
    (hy : own.graph.contains y = true) :
    (shared.graph.insertEdge (f x) (f y)).1 = (own.graph.insertEdge x y).1 ∧
      InStep mine f rest { own with graph := (own.graph.insertEdge x y).2 }
        { shared with graph := (shared.graph.insertEdge (f x) (f y)).2 } := by
  obtain ⟨haccept, hgraph, hcount⟩ := h.graph.insertEdge hown hshared hx hy
  have hn := Graph.insertEdge_nodeCount hown x y
  have hn' := Graph.insertEdge_nodeCount hshared (f x) (f y)
  have hcontains : ∀ z, (own.graph.insertEdge x y).2.contains z = own.graph.contains z := by
    intro z
    rw [Bool.eq_iff_iff, Graph.contains_iff, Graph.contains_iff, hn]
  refine ⟨haccept, { h.toEmbeds with
    graph := hgraph, get? := fun hz => h.get? (hcontains _ ▸ hz),
    apart := fun hz => h.apart (hcontains _ ▸ hz) }, h.aligned.congr hn hn', ?_⟩
  obtain ⟨hlive, hnodes, hedges, hactions⟩ := size_eq_add_iff.1 h.size
  refine size_eq_add_iff.2 ⟨hlive, ?_, ?_, hactions⟩
  · rw [hn, hn', hnodes]
  · dsimp only
    omega

/-! ## Submissions of the copy -/

/-- A wait on an own event finds a node and its copy. -/
theorem waitNode? (h : InStep mine f rest own shared) (hown : own.Coherent)
    (hshared : shared.Coherent) (he : mine event)
    (hfound : own.live.waitNode? event own.graph = some (x, live, graph)) :
    ∃ live' graph', shared.live.waitNode? event shared.graph = some (f x, live', graph') ∧
      InStep mine f rest { own with live, graph } { shared with live := live', graph := graph' } ∧
        graph.Sound ∧ graph'.Sound ∧ graph.contains x = true ∧
          ∀ y, own.graph.contains y = true → graph.contains y = true := by
  have hbinding := h.binding? he
  rcases LiveEvents.waitNode?_cases hfound with
    ⟨hb, rfl, rfl⟩ | ⟨hb, rfl, rfl, rfl⟩
  · have hx := hown.claims.allocated (LiveEvents.node?_eq_some_iff.2 hb)
    refine ⟨_, _, ?_, h, hown.claims.sound, hshared.claims.sound, hx, fun _ hy => hy⟩
    rw [LiveEvents.waitNode?, hbinding]
    rcases hb with hb | hb <;> rw [hb] <;> rfl
  · rw [hb] at hbinding
    obtain ⟨hname, hadd⟩ := h.addNode hown.claims hshared.claims
    refine ⟨_, _, ?_, hadd.bind he (.pending own.graph.addNode.1), hown.claims.sound.addNode,
      hshared.claims.sound.addNode, Graph.contains_addNode.2 (Or.inr rfl),
      fun _ hy => Graph.contains_addNode.2 (Or.inl hy)⟩
    rw [LiveEvents.waitNode?, hbinding, Binding.renamed, hname]
    rfl

/-- The operation of a submission comes to its node in the copy as in the original. -/
theorem claiming (h : InStep mine f rest own shared) (hown : own.Coherent)
    (hshared : shared.Coherent) (hs : ∀ event ∈ s.signal, mine event)
    (hclaim : Claiming own s waiter own') :
    ∃ shared', Claiming shared s (f waiter) shared' ∧ InStep mine f rest own' shared' := by
  have hnew : own.graph.addNode.2.contains own.graph.addNode.1 = true :=
    Graph.contains_addNode.2 (Or.inr rfl)
  obtain ⟨hname, hadd⟩ := h.addNode hown.claims hshared.claims
  have hbinding : ∀ {event b}, s.signal = some event → own.live.binding? event = some b →
      shared.live.binding? event = some (b.renamed f) := by
    intro event b hsignal hb
    rw [h.binding? (hs event hsignal), hb, Option.map_some]
  cases hclaim with
  | anonymous hsignal =>
    have hrecord := hadd.record s.text none hnew
    rw [hname] at hrecord ⊢
    exact ⟨_, .anonymous hsignal, hrecord⟩
  | shared hsignal hb => exact ⟨_, .shared hsignal (hbinding hsignal hb), h⟩
  | @placeholder event _ hsignal hb =>
    have hx := hown.claims.allocated (LiveEvents.node?_of_binding? hb)
    have hrecord := (h.bind (hs event hsignal) (.bound waiter)).record s.text (some event) hx
    exact ⟨_, .placeholder hsignal (hbinding hsignal hb), hrecord⟩
  | @first event hsignal hb =>
    have hrecord := (hadd.bind (hs event hsignal) (.bound own.graph.addNode.1)).record s.text
      (some event) hnew
    rw [Binding.renamed, hname] at hrecord
    rw [hname]
    exact ⟨_, .first hsignal (hbinding hsignal hb), hrecord⟩

/-- Both monitors report the same of an edge that both refuse. -/
theorem deadlockReport (h : Embeds mine f own shared) (hown : own.Coherent)
    (hshared : shared.Coherent) (hwaiter : own.graph.contains waiter = true)
    (hsignaler : own.graph.contains signaler = true)
    (hadm : ¬ own.graph.Admits signaler waiter) :
    shared.deadlockReport s event (f signaler) (f waiter) =
      (own.deadlockReport s event signaler waiter).renamed f := by
  have hsummary : ∀ {x}, own.graph.contains x = true →
      shared.actions.summary (f x) = (own.actions.summary x).renamed f := by
    intro x hx
    rw [Actions.summary, Actions.textOf, h.get? hx]
    rfl
  have hleads := Graph.leads_of_not_admits hsignaler hwaiter hadm
  obtain ⟨nodes, -, hfound, hpath, -⟩ :=
    Graph.exists_shortestPath hown.claims.sound hwaiter hleads
  have hroute := h.graph.shortestPath? hown.claims.sound hshared.claims.sound hwaiter hleads
    own.settings.maxPathLength
  rw [hfound, Option.map_some] at hroute
  rw [Monitor.deadlockReport, Monitor.deadlockReport, h.settings, hroute, hfound,
    hsummary hsignaler]
  have hnodes : (nodes.take own.settings.maxPathLength).map (shared.actions.summary ∘ f) =
      (nodes.take own.settings.maxPathLength).map
        (ActionSummary.renamed f ∘ own.actions.summary) := by
    refine List.map_congr_left fun x hx => hsummary ?_
    obtain ⟨hwx, -⟩ := hpath.between (List.mem_of_mem_take hx)
    exact hown.claims.sound.contains_of_leads hwx hwaiter
  simp only [Option.getD_some, Route.renamed, Route.ofNodes, DeadlockReport.renamed, List.map_map,
    hnodes]
  rfl

/-- The waits of an operation of the copy. -/
theorem insertWaits (h : InStep mine f rest own shared) (hown : own.Coherent)
    (hshared : shared.Coherent) (hwaiter : ∃ act, own.actions.get? waiter = some act)
    (hwaits : ∀ event ∈ waits, mine event) :
    let r := Monitor.insertWaits s waiter own waits
    let r' := Monitor.insertWaits s (f waiter) shared waits
    r'.1 = r.1.renamed f ∧ InStep mine f rest r.2 r'.2 := by
  induction waits generalizing own shared with
  | nil => exact ⟨rfl, h⟩
  | cons event waits ih =>
    obtain ⟨he, hwaits⟩ := List.forall_mem_cons.1 hwaits
    obtain ⟨act, hact⟩ := hwaiter
    have hy := hown.claims.contains_of_record hact
    have hact' : shared.actions.get? (f waiter) = some act := (h.get? hy).trans hact
    cases hwait : own.live.waitNode? event own.graph with
    | none =>
      have hwait' : shared.live.waitNode? event shared.graph = none := by
        rw [LiveEvents.waitNode?_eq_none_iff] at hwait ⊢
        rw [h.contains he, hwait]
      rw [insertWaits_of_unknown hwait, insertWaits_of_unknown hwait']
      exact ⟨rfl, h⟩
    | some found =>
      obtain ⟨signaler, live, graph⟩ := found
      obtain ⟨live', graph', hwait', hnode, hg, hg', hx, hold⟩ := h.waitNode? hown hshared he hwait
      obtain ⟨haccepts, hnext⟩ := hnode.insertEdge hg hg' hx (hold waiter hy)
      obtain ⟨hown', hrefused⟩ := hown.wait ⟨act, hact⟩ hwait
      obtain ⟨hshared', -⟩ := hshared.wait ⟨act, hact'⟩ hwait'
      cases haccept : (graph.insertEdge signaler waiter).1 with
      | false =>
        obtain ⟨-, hgraph, hadm⟩ := hrefused haccept
        rw [insertWaits_of_refused hwait haccept,
          insertWaits_of_refused hwait' (haccepts.trans haccept)]
        refine ⟨congrArg (Except.error ∘ Violation.deadlock) ?_, hnext⟩
        refine deadlockReport hnext.toEmbeds hown' hshared' ?_ ?_ ?_
        · exact (congrArg (Graph.contains · waiter) hgraph).trans (hold waiter hy)
        · exact (congrArg (Graph.contains · signaler) hgraph).trans hx
        · exact fun h => hadm (hgraph ▸ h)
      | true =>
        rw [insertWaits_of_accepted hwait haccept,
          insertWaits_of_accepted hwait' (haccepts.trans haccept)]
        exact ih hnext hown' hshared' ⟨act, hact⟩ hwaits

/-- A submission about own events has the same verdict in both monitors, and keeps them in step. -/
theorem submit (h : InStep mine f rest own shared) (hown : own.Coherent) (hshared : shared.Coherent)
    (hs : ∀ event ∈ s.signal, mine event) (hwaits : ∀ event ∈ s.waits, mine event) :
    (shared.submit s).1 = (own.submit s).1.renamed f ∧
      InStep mine f rest (own.submit s).2 (shared.submit s).2 := by
  have hfind : (s.waits.find? fun event => !shared.live.contains event) =
      s.waits.find? fun event => !own.live.contains event := by
    refine List.find?_congr fun event hm => ?_
    rw [h.contains (hwaits event hm)]
  rw [Monitor.submit, Monitor.submit, hfind]
  cases s.waits.find? fun event => !own.live.contains event with
  | some event => exact ⟨rfl, h⟩
  | none =>
    cases hclaim : own.claimNode s with
    | error violation =>
      obtain ⟨event, hsome, hnone, rfl⟩ := claimNode_eq_error hclaim
      rw [LiveEvents.signalNode?_eq_none_iff, ← h.contains (hs event hsome)] at hnone
      have hclaim' : shared.claimNode s =
          .error (.unknownSignalEvent s.operation.entryPoint event) := by
        rw [Monitor.claimNode, hsome]
        simp only [LiveEvents.signalNode?_eq_none hnone]
      rw [hclaim']
      exact ⟨rfl, h⟩
    | ok claimed =>
      obtain ⟨waiter, own'⟩ := claimed
      have hclaiming := claimNode_eq_ok_iff.1 hclaim
      obtain ⟨shared', hclaiming', hnode⟩ := h.claiming hown hshared hs hclaiming
      obtain ⟨act, hact, -⟩ := hown.recorded_of_claiming hclaiming
      rw [claimNode_eq_ok_iff.2 hclaiming']
      exact hnode.insertWaits (hown.of_claiming hclaiming) (hshared.of_claiming hclaiming')
        ⟨act, hact⟩ hwaits

/-- A notice about events of the copy is answered as by the original, and changes the copy alike. -/
theorem notify (h : InStep mine f rest own shared) (hown : own.Coherent) (hshared : shared.Coherent)
    (hmine : ∀ event ∈ notice.events, mine event) :
    (Observer.notify shared notice).verdict = (Observer.notify own notice).verdict.renamed f ∧
      InStep mine f rest (Observer.notify own notice).state
        (Observer.notify shared notice).state := by
  cases notice with
  | created event => exact ⟨rfl, h.bind (hmine event List.mem_cons_self) .unassigned⟩
  | destroyed event => exact ⟨rfl, h.destroy (hmine event List.mem_cons_self)⟩
  | hostReset event =>
    have he := hmine event List.mem_cons_self
    refine ⟨rfl, ?_⟩
    show InStep mine f rest { own with live := (own.live.reset event).2 }
      { shared with live := (shared.live.reset event).2 }
    rw [LiveEvents.reset, LiveEvents.reset, h.contains he]
    split
    · exact h.bind he .unassigned
    · exact h
  | submitted s =>
    exact h.submit hown hshared
      (fun event he => hmine event (List.mem_append_left _ (Option.mem_toList.2 he)))
      fun event he => hmine event (List.mem_append_right _ he)

end InStep

end Monitor

end WaitFor
