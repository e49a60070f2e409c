import Mathlib.Data.List.Chain
import Mathlib.Data.List.Induction
import Mathlib.Logic.Relation

/-! # Paths

A path is the list of the elements that a chain of related elements goes through.  It is built from
its start by one step after the other, as searches find it.
-/

namespace WaitFor

open Relation

variable {α : Type}

/-- The elements of a path from `a`, in order, and its last element. -/
inductive Path (R : α → α → Prop) (a : α) : (last : α) → List α → Prop
  | single : Path R a a [a]
  | concat {x y : α} {nodes : List α} (h : Path R a x nodes) (hxy : R x y) :
      Path R a y (nodes ++ [y])

namespace Path

variable {R S : α → α → Prop} {a b x : α} {nodes : List α}

/-- A path ends at its last element. -/
theorem getLast? (h : Path R a b nodes) : nodes.getLast? = some b := by
  cases h with
  | single => rfl
  | concat => exact List.getLast?_concat

/-- A path starts at its start. -/
theorem head? (h : Path R a b nodes) : nodes.head? = some a := by
  induction h with
  | single => rfl
  | concat _ _ ih => rw [List.head?_append, ih, Option.some_or]

/-- Each element of a path is related to the next. -/
theorem isChain (h : Path R a b nodes) : nodes.IsChain R := by
  induction h with
  | single => exact List.isChain_singleton a
  | concat h hxy ih =>
    refine ih.append (List.isChain_singleton _) fun z hz w hw => ?_
    obtain rfl := Option.some.inj (h.getLast?.symm.trans hz)
    obtain rfl := Option.some.inj hw
    exact hxy

/-- Related elements in a row are a path from the first to the last. -/
theorem of_isChain (hchain : nodes.IsChain R) (hhead : nodes.head? = some a)
    (hlast : nodes.getLast? = some b) : Path R a b nodes := by
  induction nodes using List.reverseRecOn generalizing b with
  | nil => cases hhead
  | append_singleton nodes y ih =>
    rw [List.getLast?_concat] at hlast
    obtain rfl := Option.some.inj hlast
    cases hx : nodes.getLast? with
    | none =>
      rw [List.getLast?_eq_none_iff] at hx
      subst hx
      obtain rfl := Option.some.inj hhead
      exact single
    | some x =>
      obtain ⟨hchain, -, hedge⟩ := List.isChain_append.1 hchain
      have hne : nodes ≠ [] := by
        rintro rfl
        cases hx
      rw [List.head?_append_of_ne_nil _ hne] at hhead
      exact (ih hchain hhead hx).concat (hedge x hx y rfl)

/-- A path is a chain of related elements with its two ends. -/
theorem iff_isChain :
    Path R a b nodes ↔ nodes.IsChain R ∧ nodes.head? = some a ∧ nodes.getLast? = some b :=
  ⟨fun h => ⟨h.isChain, h.head?, h.getLast?⟩, fun h => of_isChain h.1 h.2.1 h.2.2⟩

/-- A path along a relation is one along any weaker relation. -/
theorem mono (h : Path R a b nodes) (hRS : ∀ x y, R x y → S x y) : Path S a b nodes := by
  induction h with
  | single => exact single
  | concat _ hxy ih => exact ih.concat (hRS _ _ hxy)

/-- A path leads from its start to its end. -/
theorem reflTransGen (h : Path R a b nodes) : ReflTransGen R a b := by
  induction h with
  | single => exact .refl
  | concat _ hxy ih => exact ih.tail hxy

/-- Wherever a relation leads there is a path. -/
theorem exists_of_reflTransGen (h : ReflTransGen R a b) : ∃ nodes, Path R a b nodes := by
  induction h with
  | refl => exact ⟨[a], single⟩
  | tail _ hxy ih =>
    obtain ⟨nodes, h⟩ := ih
    exact ⟨_, h.concat hxy⟩

theorem length_pos (h : Path R a b nodes) : 0 < nodes.length := by
  cases h with
  | single => exact Nat.one_pos
  | concat => simp

/-- Every element of a path lies between its ends. -/
theorem between (h : Path R a b nodes) (hx : x ∈ nodes) :
    ReflTransGen R a x ∧ ReflTransGen R x b := by
  induction h with
  | single =>
    obtain rfl := List.mem_singleton.1 hx
    exact ⟨.refl, .refl⟩
  | concat h hxy ih =>
    rcases List.mem_append.1 hx with hx | hx
    · exact ⟨(ih hx).1, (ih hx).2.tail hxy⟩
    · obtain rfl := List.mem_singleton.1 hx
      exact ⟨h.reflTransGen.tail hxy, .refl⟩

end Path

end WaitFor
