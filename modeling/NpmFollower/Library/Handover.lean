import Mathlib

/-! # Handing items over

Items wait in a queue until a second place holds them too, and only then leave
the queue. An item that one of the two places holds is never in neither.
-/

namespace Handover

variable {α : Type*}

/-- The items that wait and the items handed over. -/
@[ext] structure Places (α : Type*) where
  waiting : Set α
  done : Set α

def Places.covered (p : Places α) : Set α := p.waiting ∪ p.done

inductive Step (p : Places α) : Places α → Prop where
  | enqueue (items : Set α) : Step p ⟨p.waiting ∪ items, p.done⟩
  | record (items : Set α) : Step p ⟨p.waiting, p.done ∪ items⟩
  | remove (items : Set α) (recorded : items ⊆ p.done) : Step p ⟨p.waiting \ items, p.done⟩

abbrev Steps : Places α → Places α → Prop := Relation.ReflTransGen Step

variable {p p' : Places α}

theorem Step.done_subset (h : Step p p') : p.done ⊆ p'.done := by
  cases h with
  | enqueue items => exact subset_rfl
  | record items => exact Set.subset_union_left
  | remove items recorded => exact subset_rfl

theorem Step.covered_subset (h : Step p p') : p.covered ⊆ p'.covered := by
  cases h with
  | enqueue items => exact Set.union_subset_union_left _ Set.subset_union_left
  | record items => exact Set.union_subset_union_right _ Set.subset_union_left
  | remove items recorded =>
    rintro x (hx | hx)
    · by_cases hi : x ∈ items
      · exact .inr (recorded hi)
      · exact .inl ⟨hx, hi⟩
    · exact .inr hx

theorem Steps.done_subset (h : Steps p p') : p.done ⊆ p'.done := by
  induction h with
  | refl => exact subset_rfl
  | tail _ hstep ih => exact ih.trans hstep.done_subset

theorem Steps.covered_subset (h : Steps p p') : p.covered ⊆ p'.covered := by
  induction h with
  | refl => exact subset_rfl
  | tail _ hstep ih => exact ih.trans hstep.covered_subset

end Handover
