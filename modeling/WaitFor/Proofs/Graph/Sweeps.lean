import WaitFor.Proofs.Graph.Edges

/-! # What a bounded search finds

`Window.Run` spells out the turns that a search takes.  By induction over them: what holds of the
nodes a search starts from and is kept by its steps holds of all it finds (`Run.found_of_step`); it
finds what it marks (`Run.marked_eq`); if it is cut off, a target stands beside a node it found
(`Run.target_of_incomplete`); and otherwise nothing is left to enter (`Run.closed_of_complete`).
So a search from one node finds what its steps lead to (`Run.mem_found_iff`).
-/

namespace WaitFor.Window

open Relation

variable {w : Window} {size : Nat} {found marked stack : List NodeId} {n : NodeId} {s : Sweep}

/-- A step that the search may take. -/
def Step (w : Window) (x y : NodeId) : Prop := y ∈ w.next x ∧ w.inside y = true

/-- The nodes beside `n` that are put on the worklist when `n` is visited. -/
def entered (w : Window) (marked : List NodeId) (n : NodeId) : List NodeId :=
  (w.next n).filter fun v => v ∉ n :: marked ∧ w.inside v

/-- The nodes that are entered stand beside the node, are not marked and lie in the window. -/
theorem mem_entered {v : NodeId} :
    v ∈ w.entered marked n ↔ v ∈ w.next n ∧ v ∉ n :: marked ∧ w.inside v = true := by
  rw [entered, List.mem_filter, decide_eq_true_iff]

/-- The turns of a search from the nodes on a worklist to its result.  The search ends where the
worklist is empty or a target stands beside the next node; otherwise that node is visited for the
first time, or passed over. -/
inductive Run (w : Window) (size : Nat) :
    (found marked stack : List NodeId) → Sweep → Prop
  | done {found marked : List NodeId} : Run w size found marked [] ⟨true, found, marked⟩
  | target {found marked stack : List NodeId} {n : NodeId} (hsize : n.index < size)
      (hnew : n ∉ marked) (htarget : ∃ y ∈ w.next n, w.target y = true) :
      Run w size found marked (n :: stack) ⟨false, n :: found, n :: marked⟩
  | visit {found marked stack : List NodeId} {n : NodeId} {s : Sweep} (hsize : n.index < size)
      (hnew : n ∉ marked) (htarget : ∀ y ∈ w.next n, w.target y = false)
      (rest : Run w size (n :: found) (n :: marked) ((w.entered marked n).reverse ++ stack) s) :
      Run w size found marked (n :: stack) s
  | skip {found marked stack : List NodeId} {n : NodeId} {s : Sweep}
      (hskip : n.index < size → n ∈ marked) (rest : Run w size found marked stack s) :
      Run w size found marked (n :: stack) s

/-- The search takes these turns. -/
theorem run_sweep (w : Window) (size : Nat) (found marked stack : List NodeId) :
    Run w size found marked stack (w.sweep size found marked stack) := by
  fun_induction w.sweep size found marked stack with
  | case1 => exact .done
  | case2 found marked n stack h _ ht => exact .target h.1 h.2 (List.any_eq_true.1 ht)
  | case3 found marked n stack h _ ht entered ih =>
    refine .visit h.1 h.2 (fun y hy => ?_) (by simpa [entered, Window.entered] using ih)
    simpa using List.any_eq_false.1 (by simpa using ht) y hy
  | case4 found marked n stack h ih =>
    refine .skip (fun hn => ?_) ih
    by_contra hm
    exact h ⟨hn, hm⟩

namespace Run

/-- A property of the nodes at the start that the steps of the search keep holds of all nodes that
it finds. -/
theorem found_of_step {P : NodeId → Prop} (h : Run w size found marked stack s)
    (hstep : ∀ x y, P x → y ∈ w.next x → w.inside y = true → P y)
    (hfound : ∀ x ∈ found, P x) (hstack : ∀ x ∈ stack, P x) : ∀ x ∈ s.found, P x := by
  induction h with
  | done => exact hfound
  | target _ _ _ => exact List.forall_mem_cons.2 ⟨hstack _ List.mem_cons_self, hfound⟩
  | @visit found marked stack n s _ _ _ _ ih =>
    obtain ⟨hn, hstack⟩ := List.forall_mem_cons.1 hstack
    refine ih (List.forall_mem_cons.2 ⟨hn, hfound⟩) (List.forall_mem_append.2 ⟨?_, hstack⟩)
    intro y hy
    obtain ⟨hnext, -, hin⟩ := mem_entered.1 (List.mem_reverse.1 hy)
    exact hstep n y hn hnext hin
  | skip _ _ ih => exact ih hfound (List.forall_mem_cons.1 hstack).2

/-- The nodes that a search finds are the nodes that it marks, each once. -/
theorem marked_eq (h : Run w size found marked stack s) :
    ∃ met, s.found = met ++ found ∧ s.marked = met ++ marked ∧ met.Nodup ∧
      ∀ x ∈ met, x ∉ marked := by
  induction h with
  | done => exact ⟨[], rfl, rfl, List.nodup_nil, by simp⟩
  | @target found marked stack n _ hnew _ =>
    exact ⟨[n], rfl, rfl, List.nodup_singleton n, by simpa using hnew⟩
  | @visit found marked stack n s _ hnew _ _ ih =>
    obtain ⟨met, hf, hm, hnodup, hfresh⟩ := ih
    have hn : n ∉ met := fun hn => hfresh n hn List.mem_cons_self
    refine ⟨met ++ [n], by simp [hf], by simp [hm], ?_, ?_⟩
    · rw [← List.concat_eq_append]
      exact hnodup.concat hn
    · refine List.forall_mem_append.2 ⟨fun x hx hmem => ?_, by simpa using hnew⟩
      exact hfresh x hx (List.mem_cons_of_mem _ hmem)
  | skip _ _ ih => exact ih

/-- A search takes no mark off. -/
theorem mem_marked (h : Run w size found marked stack s) {x : NodeId} (hx : x ∈ marked) :
    x ∈ s.marked := by
  obtain ⟨met, -, hm, -⟩ := h.marked_eq
  rw [hm]
  exact List.mem_append_right _ hx

/-- A search that was cut off saw a target beside a node that it found. -/
theorem target_of_incomplete (h : Run w size found marked stack s) (hs : s.complete = false) :
    ∃ x ∈ s.found, ∃ y ∈ w.next x, w.target y = true := by
  induction h with
  | done => simp at hs
  | target _ _ htarget => exact ⟨_, List.mem_cons_self, htarget⟩
  | visit _ _ _ _ ih => exact ih hs
  | skip _ _ ih => exact ih hs

/-- A search that was not cut off has met the nodes it started from. -/
theorem mem_marked_of_complete (h : Run w size found marked stack s) (hs : s.complete = true)
    {x : NodeId} (hx : x ∈ stack) (hsize : x.index < size) : x ∈ s.marked := by
  induction h with
  | done => exact absurd hx List.not_mem_nil
  | target _ _ _ => simp at hs
  | visit _ _ _ rest ih =>
    rcases List.mem_cons.1 hx with rfl | hx
    · exact rest.mem_marked List.mem_cons_self
    · exact ih hs (List.mem_append_right _ hx)
  | skip hskip rest ih =>
    rcases List.mem_cons.1 hx with rfl | hx
    · exact rest.mem_marked (hskip hsize)
    · exact ih hs hx

/-- From the nodes that it found, a search that was not cut off can step neither to a target nor to
a node without a mark. -/
theorem closed_of_complete (h : Run w size found marked stack s) (hs : s.complete = true)
    (hsize : ∀ x, ∀ y ∈ w.next x, y.index < size)
    (hfound : ∀ x ∈ found, ∀ y ∈ w.next x,
      w.target y = false ∧ (w.inside y = true → y ∈ s.marked)) :
    ∀ x ∈ s.found, ∀ y ∈ w.next x, w.target y = false ∧ (w.inside y = true → y ∈ s.marked) := by
  induction h with
  | done => exact hfound
  | target _ _ _ => simp at hs
  | @visit found marked stack n s _ _ htarget rest ih =>
    refine ih hs (List.forall_mem_cons.2 ⟨fun y hy => ⟨htarget y hy, fun hin => ?_⟩, hfound⟩)
    -- `y` was either marked before or is put on the worklist now.
    by_cases hm : y ∈ n :: marked
    · exact rest.mem_marked hm
    · refine rest.mem_marked_of_complete hs ?_ (hsize n y hy)
      exact List.mem_append_left _ (List.mem_reverse.2 (mem_entered.2 ⟨hy, hm, hin⟩))
  | skip _ _ ih => exact ih hs hfound

/-! ## Searches from one node -/

/-- A search from one node, with nothing marked, that was not cut off finds exactly the nodes that
its steps lead to. -/
theorem mem_found_iff (h : Run w size [] [] [n] s) (hs : s.complete = true)
    (hsize : ∀ x, ∀ y ∈ w.next x, y.index < size) (hn : n.index < size) {x : NodeId} :
    x ∈ s.found ↔ ReflTransGen w.Step n x := by
  obtain ⟨met, hf, hm, -⟩ := h.marked_eq
  have hmarked : s.marked = s.found := hm.trans hf.symm
  constructor
  · refine h.found_of_step (fun x y hx hy hin => hx.tail ⟨hy, hin⟩) (by simp) ?_ x
    simpa using ReflTransGen.refl
  · intro hx
    induction hx with
    | refl =>
      rw [← hmarked]
      exact h.mem_marked_of_complete hs List.mem_cons_self hn
    | @tail y z _ hyz ih =>
      rw [← hmarked]
      exact (h.closed_of_complete hs hsize (by simp) y ih z hyz.1).2 hyz.2

/-- Such a search is cut off exactly if a target stands beside a node that its steps lead to. -/
theorem complete_eq_false_iff (h : Run w size [] [] [n] s)
    (hsize : ∀ x, ∀ y ∈ w.next x, y.index < size) (hn : n.index < size) :
    s.complete = false ↔ ∃ x y, ReflTransGen w.Step n x ∧ y ∈ w.next x ∧ w.target y = true := by
  constructor
  · intro hs
    obtain ⟨x, hx, y, hy, htarget⟩ := h.target_of_incomplete hs
    refine ⟨x, y, ?_, hy, htarget⟩
    refine h.found_of_step (fun x y hx hy hin => hx.tail ⟨hy, hin⟩) (by simp) ?_ x hx
    simpa using ReflTransGen.refl
  · rintro ⟨x, y, hx, hy, htarget⟩
    by_contra hs
    have hs : s.complete = true := by simpa using hs
    have hfound := (h.mem_found_iff hs hsize hn).2 hx
    have := (h.closed_of_complete hs hsize (by simp) x hfound y hy).1
    rw [htarget] at this
    cases this

end Run

end WaitFor.Window
