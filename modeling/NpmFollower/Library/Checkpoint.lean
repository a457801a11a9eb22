import Mathlib

/-! # Checkpoints of a pipeline

A reader passes over items and saves its place, while the items it has passed are
worked on elsewhere. A restart goes on from the saved place and forgets what was
in flight, so a save is safe just when nothing it covers is still in flight.
-/

namespace Checkpoint

variable {α : Type*}

structure Progress (α : Type*) where
  passed : Set α
  saved : Set α
  inFlight : Set α
  done : Set α

/-- An item that the reader has passed is being worked on or done. -/
def Covered (p : Progress α) : Prop := p.passed ⊆ p.inFlight ∪ p.done

/-- A restart misses no item. -/
def Safe (p : Progress α) : Prop := p.saved ⊆ p.done

/-- Nothing that the reader has passed is unfinished. -/
def Drained (p : Progress α) : Prop := p.passed ∩ p.inFlight ⊆ p.done

/-- The reader passes items into the pipeline and the pipeline finishes items. -/
structure Advances (p p' : Progress α) : Prop where
  saved : p'.saved = p.saved
  done : p.done ⊆ p'.done
  passed : p'.passed ⊆ p.passed ∪ (p'.inFlight ∪ p'.done)
  inFlight : p.inFlight ⊆ p'.inFlight ∪ p'.done

/-- A restart begins no further than the saved place. -/
structure Resumes (p p' : Progress α) : Prop where
  saved : p'.saved = p.saved
  done : p.done ⊆ p'.done
  passed : p'.passed ⊆ p.saved

def Progress.save (p : Progress α) : Progress α := { p with saved := p.passed }

variable {p p' : Progress α}

theorem Advances.covered (h : Advances p p') (hp : Covered p) : Covered p' := by
  intro x hx
  rcases h.passed hx with hx | hx
  · rcases hp hx with hx | hx
    · exact h.inFlight hx
    · exact .inr (h.done hx)
  · exact hx

theorem Advances.safe (h : Advances p p') (hp : Safe p) : Safe p' := by
  intro x hx
  rw [h.saved] at hx
  exact h.done (hp hx)

theorem Resumes.covered (h : Resumes p p') (hp : Safe p) : Covered p' := fun _ hx =>
  .inr (h.done (hp (h.passed hx)))

theorem Resumes.safe (h : Resumes p p') (hp : Safe p) : Safe p' := by
  intro x hx
  rw [h.saved] at hx
  exact h.done (hp hx)

theorem safe_save_iff (hp : Covered p) : Safe p.save ↔ Drained p := by
  constructor
  · intro h x hx
    exact h hx.1
  · intro h x hx
    rcases hp hx with hflight | hdone
    · exact h ⟨hx, hflight⟩
    · exact hdone

end Checkpoint
