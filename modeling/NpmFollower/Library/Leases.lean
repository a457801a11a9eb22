import Mathlib

/-! # Leases with timers

A resource is leased under a name, and a timer of the same name releases it when
it runs out. The timer is registered with the resource so that a release can stop
it. Leases and timers are paired when no lease is without its timer, and no
running timer is about to release the lease of another.
-/

/-- The leases of the resources, the timers registered with them, and what the running timers will
release. -/
structure Leases (φ κ : Type) where
  holder : φ → Option κ
  timer : φ → Option κ
  running : κ → Option φ

namespace Leases

variable {φ κ : Type} [DecidableEq φ] [DecidableEq κ] (l : Leases φ κ) (f : φ) (k : κ)

/-- A resource is leased and its timer started. -/
def take : Leases φ κ where
  holder := fun f' => if f = f' then some k else l.holder f'
  timer := fun f' => if f = f' then some k else l.timer f'
  running := fun k' => if k = k' then some f else l.running k'

/-- The holder gives the resource back, and its timer goes on. -/
def release : Leases φ κ := { l with holder := fun f' => if f = f' then none else l.holder f' }

/-- The timer registered with a resource is stopped. -/
def abort : Leases φ κ where
  holder := l.holder
  timer := fun f' => if f = f' then none else l.timer f'
  running := fun k' => if l.timer f = some k' then none else l.running k'

/-- A timer stops by itself. -/
def stop : Leases φ κ := { l with running := fun k' => if k = k' then none else l.running k' }

structure Paired : Prop where
  timed : ∀ f k, l.holder f = some k → l.timer f = some k ∧ l.running k = some f
  own : ∀ k f k', l.running k = some f → l.holder f = some k' → k' = k
  registered : ∀ f k f', l.timer f = some k → l.running k = some f' → f' = f

variable {l f k}

namespace Paired

theorem take (h : l.Paired) (hsettled : ∀ k, l.running k ≠ some f)
    (hnew : ∀ f, l.running k ≠ some f ∧ l.timer f ≠ some k) : (l.take f k).Paired where
  timed := by
    intro f' k' hholder
    simp only [Leases.take] at hholder ⊢
    split_ifs at hholder ⊢ with hf hk hk
    · exact ⟨hholder, congrArg some hf⟩
    · exact absurd (Option.some.inj hholder) hk
    · exact absurd (h.timed f' k' hholder).2 (hk ▸ (hnew f').1)
    · exact h.timed f' k' hholder
  own := by
    intro k₁ f' k' hrunning hholder
    simp only [Leases.take] at hrunning hholder
    split_ifs at hrunning hholder with hk hf hf
    · exact (Option.some.inj hholder).symm.trans hk
    · exact absurd (Option.some.inj hrunning) hf
    · exact absurd hrunning (hf ▸ hsettled k₁)
    · exact h.own k₁ f' k' hrunning hholder
  registered := by
    intro f₁ k' f' htimer hrunning
    simp only [Leases.take] at htimer hrunning
    split_ifs at htimer hrunning with hf hk hk
    · exact (Option.some.inj hrunning).symm.trans hf
    · exact absurd (Option.some.inj htimer) hk
    · exact absurd htimer (hk ▸ (hnew f₁).2)
    · exact h.registered f₁ k' f' htimer hrunning

omit [DecidableEq κ] in
theorem release (h : l.Paired) (f : φ) : (l.release f).Paired := by
  have hold {f' : φ} {k' : κ} (hholder : (l.release f).holder f' = some k') :
      l.holder f' = some k' := by
    simp only [Leases.release] at hholder
    split_ifs at hholder
    exact hholder
  constructor
  case timed => exact fun f' k' hholder => h.timed f' k' (hold hholder)
  case own => exact fun k f' k' hrunning hholder => h.own k f' k' hrunning (hold hholder)
  case registered => exact h.registered

/-- The timer of a resource that is not leased may be stopped. -/
theorem abort (h : l.Paired) (hfree : l.holder f = none) : (l.abort f).Paired where
  timed := by
    intro f' k' hholder
    obtain ⟨htimer, hrunning⟩ := h.timed f' k' hholder
    have hf : f ≠ f' := by
      rintro rfl
      exact Option.some_ne_none _ (hholder.symm.trans hfree)
    have hk : l.timer f ≠ some k' := fun hk => hf (h.registered f k' f' hk hrunning).symm
    simp [Leases.abort, hf, hk, htimer, hrunning]
  own := by
    intro k f' k' hrunning hholder
    simp only [Leases.abort] at hrunning
    split_ifs at hrunning
    exact h.own k f' k' hrunning hholder
  registered := by
    intro f₁ k f' htimer hrunning
    simp only [Leases.abort] at htimer hrunning
    split_ifs at htimer hrunning
    exact h.registered f₁ k f' htimer hrunning

omit [DecidableEq φ] in
/-- A timer may stop when what it would release is not leased. -/
theorem stop (h : l.Paired) (hfree : ∀ f, l.running k = some f → l.holder f = none) :
    (l.stop k).Paired := by
  have hold {k' : κ} {f : φ} (hrunning : (l.stop k).running k' = some f) : l.running k' = some f := by
    simp only [Leases.stop] at hrunning
    split_ifs at hrunning
    exact hrunning
  constructor
  case timed =>
    intro f k' hholder
    obtain ⟨htimer, hrunning⟩ := h.timed f k' hholder
    have hk : k ≠ k' := by
      rintro rfl
      exact Option.some_ne_none _ (hholder.symm.trans (hfree f hrunning))
    simp [Leases.stop, hk, htimer, hrunning]
  case own => exact fun k₁ f k' hrunning hholder => h.own k₁ f k' (hold hrunning) hholder
  case registered => exact fun f k₁ f' htimer hrunning => h.registered f k₁ f' htimer (hold hrunning)

/-- A timer that runs out releases what is leased under its name. -/
theorem expire (h : l.Paired) (hrunning : l.running k = some f) : ((l.release f).stop k).Paired := by
  apply (h.release f).stop
  intro f' hrunning'
  cases hrunning.symm.trans hrunning'
  simp [Leases.release]

end Paired

end Leases
