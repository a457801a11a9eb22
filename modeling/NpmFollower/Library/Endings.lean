import Mathlib

/-! # Loops that end

A loop whose turns may each go one of several ways ends when all its runs are
finite. A measure that every turn lowers makes it end; a condition under which
there always is a turn that keeps the condition makes it go on.
-/

namespace Endings

variable {σ : Type} {turn : σ → σ → Prop} {s : σ}

/-- Every run of turns from the state is finite. -/
def Ends (turn : σ → σ → Prop) (s : σ) : Prop := Acc (fun s' s => turn s s') s

theorem ends_of_measure {I : σ → Prop} (size : σ → ℕ)
    (hturn : ∀ s s', I s → turn s s' → I s' ∧ size s' < size s) (hs : I s) : Ends turn s := by
  induction hn : size s using Nat.strong_induction_on generalizing s with
  | _ n ih =>
    refine Acc.intro s fun s' hs' => ?_
    obtain ⟨hI, hless⟩ := hturn s s' hs hs'
    exact ih (size s') (by omega) hI rfl

theorem not_ends_of_progress {I : σ → Prop} (hturn : ∀ s, I s → ∃ s', turn s s' ∧ I s')
    (hs : I s) : ¬ Ends turn s := by
  intro h
  induction h with
  | intro s _ ih =>
    obtain ⟨s', hs', hI⟩ := hturn s hs
    exact ih s' hs' hI

end Endings
