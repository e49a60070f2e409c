import Mathlib.Logic.Relation

/-! # Chains in lists of pairs

A list of pairs is a finite relation, and `Chains pairs` its reflexive and transitive closure.  The
references that graphs and monitors are compared with are made of such lists, and can be run since
chains are decided by recursion on the list.  `Circular` says that a chain of pairs leads back to
where it started.
-/

namespace WaitFor

open Relation

variable {α : Type} {pairs : List (α × α)} {a b x y : α}

/-- A chain of pairs leads from one element to another. -/
def Chains (pairs : List (α × α)) : α → α → Prop := ReflTransGen fun x y => (x, y) ∈ pairs

namespace Chains

/-- One more pair leaves the chains that there are. -/
theorem cons (p : α × α) (h : Chains pairs x y) : Chains (p :: pairs) x y :=
  ReflTransGen.mono (fun _ _ hm => List.mem_cons_of_mem p hm) x y h

/-- Without pairs, chains lead nowhere. -/
theorem nil_iff : Chains ([] : List (α × α)) x y ↔ x = y := by
  constructor
  · intro h
    rcases ReflTransGen.cases_head h with heq | ⟨z, hm, -⟩
    · exact heq
    · exact absurd hm List.not_mem_nil
  · rintro rfl
    exact ReflTransGen.refl

/-- A chain through a new pair can be cut before its first and after its last use of it. -/
theorem cons_iff :
    Chains ((a, b) :: pairs) x y ↔ Chains pairs x y ∨ Chains pairs x a ∧ Chains pairs b y := by
  constructor
  · intro h
    induction h with
    | refl => exact Or.inl ReflTransGen.refl
    | tail _ hm ih =>
      rcases List.mem_cons.1 hm with heq | hm
      · obtain ⟨rfl, rfl⟩ := Prod.mk.inj heq
        exact Or.inr ⟨ih.elim id And.left, ReflTransGen.refl⟩
      · rcases ih with h | ⟨h, h'⟩
        · exact Or.inl (h.tail hm)
        · exact Or.inr ⟨h, h'.tail hm⟩
  · rintro (h | ⟨h, h'⟩)
    · exact h.cons _
    · exact ((h.cons _).tail List.mem_cons_self).trans (h'.cons _)

/-- A pair that ends at an element opens no chain from there. -/
theorem cons_self_iff : Chains ((a, x) :: pairs) x y ↔ Chains pairs x y := by
  rw [cons_iff, or_iff_left_of_imp And.right]

/-- Pairs that end at an element open no chain from there. -/
theorem map_append_iff {sources : List α} :
    Chains (sources.map (·, x) ++ pairs) x y ↔ Chains pairs x y := by
  induction sources with
  | nil => exact Iff.rfl
  | cons a sources ih => rw [List.map_cons, List.cons_append, cons_self_iff, ih]

instance decide [DecidableEq α] : (pairs : List (α × α)) → (x y : α) → Decidable (Chains pairs x y)
  | [], _, _ => decidable_of_iff _ nil_iff.symm
  | (_, _) :: pairs, _, _ =>
    have := decide pairs
    decidable_of_iff _ cons_iff.symm

end Chains

/-! ## Circles -/

/-- Pairs lead from an element back to it. -/
def Circular (pairs : List (α × α)) : Prop := ∃ x, TransGen (fun x y => (x, y) ∈ pairs) x x

namespace Circular

variable {pairs' : List (α × α)}

/-- Without pairs there is no circle. -/
theorem not_nil : ¬ Circular ([] : List (α × α)) := by
  rintro ⟨x, h⟩
  obtain ⟨y, hxy, -⟩ := TransGen.head'_iff.1 h
  exact List.not_mem_nil hxy

/-- More pairs leave the circles that there are. -/
theorem mono (h : pairs ⊆ pairs') : Circular pairs → Circular pairs' :=
  fun ⟨x, hx⟩ => ⟨x, TransGen.mono (fun _ _ hm => h hm) x x hx⟩

/-- A pair with a chain back makes a circle. -/
theorem of_mem_of_chains (hab : (a, b) ∈ pairs) (hba : Chains pairs b a) : Circular pairs :=
  ⟨a, TransGen.head' hab hba⟩

/-- A new pair closes a circle if a chain led back along it. -/
theorem cons_iff : Circular ((a, b) :: pairs) ↔ Circular pairs ∨ Chains pairs b a := by
  constructor
  · rintro ⟨x, h⟩
    obtain ⟨y, hxy, hyx⟩ := TransGen.head'_iff.1 h
    rcases List.mem_cons.1 hxy with heq | hxy
    · obtain ⟨rfl, rfl⟩ := Prod.mk.inj heq
      exact Or.inr ((Chains.cons_iff.1 hyx).elim id And.left)
    · rcases Chains.cons_iff.1 hyx with hyx | ⟨hya, hbx⟩
      · exact Or.inl (of_mem_of_chains hxy hyx)
      · exact Or.inr ((hbx.tail hxy).trans hya)
  · rintro (h | h)
    · exact h.mono (List.subset_cons_self _ _)
    · exact of_mem_of_chains List.mem_cons_self (h.cons _)

/-- New pairs into one element close a circle if a chain led back along one of them. -/
theorem map_append_iff {sources : List α} :
    Circular (sources.map (·, b) ++ pairs) ↔ Circular pairs ∨ ∃ a ∈ sources, Chains pairs b a := by
  induction sources with
  | nil => simp
  | cons a sources ih =>
    rw [List.map_cons, List.cons_append, cons_iff, Chains.map_append_iff, ih, or_assoc]
    simp only [List.mem_cons, exists_eq_or_imp]
    exact or_congr Iff.rfl or_comm

end Circular

end WaitFor
