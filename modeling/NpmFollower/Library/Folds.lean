import Mathlib

/-! # Folds that can fail

A fold in `Except` that returns has taken every one of its steps, so what the
steps keep holds of the elements folded so far.
-/

namespace Folds

variable {α β ε : Type}

theorem ok_of_bind {x : Except ε α} {f : α → Except ε β} {b : β} (h : (x >>= f) = .ok b) :
    ∃ a, x = .ok a ∧ f a = .ok b := by
  cases x with
  | error e => cases h
  | ok a => exact ⟨a, rfl, h⟩

theorem foldlM_cons_ok {f : β → α → Except ε β} {a : α} {l : List α} {b b' : β}
    (h : (a :: l).foldlM f b = .ok b') : ∃ c, f b a = .ok c ∧ l.foldlM f c = .ok b' := by
  rw [List.foldlM_cons] at h
  exact ok_of_bind h

/-- The rule for a fold: an invariant of the elements done and the value so far. -/
theorem foldlM_ok {f : β → α → Except ε β} {I : List α → β → Prop} {l : List α} {b b' : β}
    (h : l.foldlM f b = .ok b') (hstart : I [] b)
    (hstep : ∀ done a rest b b', l = done ++ a :: rest → I done b → f b a = .ok b' →
      I (done ++ [a]) b') : I l b' := by
  suffices hgen : ∀ rest done b, l = done ++ rest → I done b → rest.foldlM f b = .ok b' → I l b' by
    exact hgen l [] b rfl hstart h
  intro rest
  induction rest with
  | nil =>
    intro done b hl hdone hfold
    cases hfold
    rwa [hl, List.append_nil]
  | cons a rest ih =>
    intro done b hl hdone hfold
    obtain ⟨c, hc, hfold⟩ := foldlM_cons_ok hfold
    apply ih (done ++ [a]) c
    · rw [hl, List.append_assoc, List.singleton_append]
    · exact hstep done a rest b c hl hdone hc
    · exact hfold

/-- A map that returns has mapped every element. -/
theorem forall₂_of_mapM {f : α → Option β} {l : List α} {l' : List β} (h : l.mapM f = some l') :
    List.Forall₂ (fun a b => f a = some b) l l' := by
  induction l generalizing l' with
  | nil =>
    cases h
    exact List.Forall₂.nil
  | cons a l ih =>
    rw [List.mapM_cons] at h
    obtain ⟨b, hb, htail⟩ := Option.bind_eq_some_iff.mp h
    obtain ⟨bs, hbs, heq⟩ := Option.bind_eq_some_iff.mp htail
    cases heq
    exact List.Forall₂.cons hb (ih hbs)

theorem exists_mapM_of_forall {f : α → Option β} {l : List α} (h : ∀ a ∈ l, (f a).isSome) :
    ∃ l', l.mapM f = some l' := by
  induction l with
  | nil => exact ⟨[], rfl⟩
  | cons a l ih =>
    obtain ⟨b, hb⟩ := Option.isSome_iff_exists.mp (h a List.mem_cons_self)
    obtain ⟨bs, hbs⟩ := ih fun a' ha' => h a' (List.mem_cons_of_mem _ ha')
    exact ⟨b :: bs, by simp [List.mapM_cons, hb, hbs]⟩

theorem mapM_eq_ok_iff {f : α → Except ε β} {l : List α} {l' : List β} :
    l.mapM f = .ok l' ↔ List.Forall₂ (fun a b => f a = .ok b) l l' := by
  induction l generalizing l' with
  | nil => cases l' <;> simp [pure, Except.pure]
  | cons a l ih =>
    rw [List.mapM_cons]
    constructor
    · intro h
      obtain ⟨b, hb, htail⟩ := ok_of_bind h
      obtain ⟨bs, hbs, heq⟩ := ok_of_bind htail
      cases heq
      exact List.Forall₂.cons hb (ih.mp hbs)
    · intro h
      cases h with
      | cons hb htail =>
        rw [hb, ih.mpr htail]
        rfl

theorem exists_mapM_ok_of_forall {f : α → Except ε β} {l : List α}
    (h : ∀ a ∈ l, ∃ b, f a = .ok b) : ∃ l', l.mapM f = .ok l' := by
  induction l with
  | nil => exact ⟨[], rfl⟩
  | cons a l ih =>
    obtain ⟨b, hb⟩ := h a List.mem_cons_self
    obtain ⟨bs, hbs⟩ := ih fun a' ha' => h a' (List.mem_cons_of_mem _ ha')
    refine ⟨b :: bs, ?_⟩
    rw [List.mapM_cons, hb, hbs]
    rfl

section

variable {γ : Type} {R : α → β → Prop} {l : List α} {l' : List β} (h : List.Forall₂ R l l')
include h

theorem map_eq_map_of_forall₂ {f : α → γ} {g : β → γ} (hR : ∀ a b, R a b → f a = g b) :
    l.map f = l'.map g := by
  induction h with
  | nil => rfl
  | cons hab _ ih => rw [List.map_cons, List.map_cons, hR _ _ hab, ih]

theorem exists_of_mem_right {b : β} (hb : b ∈ l') : ∃ a ∈ l, R a b := by
  induction h with
  | nil => cases hb
  | cons hab _ ih =>
    rcases List.mem_cons.mp hb with rfl | hb
    · exact ⟨_, List.mem_cons_self, hab⟩
    · obtain ⟨a, ha, hR⟩ := ih hb
      exact ⟨a, List.mem_cons_of_mem _ ha, hR⟩

end

end Folds
