import Mathlib

/-! # Runs of a step function

A system makes a step for an action, or cannot take it. A run is a list of
steps, each of which meets a condition on the state before it and its action;
what the steps keep, the run keeps.
-/

namespace Runs

variable {σ α ε : Type} (step : σ → α → Option (σ × List ε)) (P : σ → α → Prop)

/-- The states that runs from `s₀` reach, with what the steps have shown. -/
inductive Run (s₀ : σ) : List ε → σ → Prop where
  | start : Run s₀ [] s₀
  | next {es es' : List ε} {s s' : σ} {a : α} (run : Run s₀ es s) (cond : P s a)
      (taken : step s a = some (s', es')) : Run s₀ (es ++ es') s'

variable {step P} {Q : σ → α → Prop} {s₀ : σ}

namespace Run

theorem mono {es : List ε} {s : σ} (h : Run step P s₀ es s) (hPQ : ∀ s a, P s a → Q s a) :
    Run step Q s₀ es s := by
  induction h with
  | start => exact .start
  | next _ cond taken ih => exact ih.next (hPQ _ _ cond) taken

theorem trans {es es' : List ε} {s s' : σ} (h : Run step P s₀ es s) (h' : Run step P s es' s') :
    Run step P s₀ (es ++ es') s' := by
  induction h' with
  | start => simpa using h
  | next _ cond taken ih =>
    rw [← List.append_assoc]
    exact ih.next cond taken

/-- What holds at the start and is kept by every step holds at the end. -/
theorem invariant {I : σ → Prop} {es : List ε} {s : σ} (h : Run step P s₀ es s) (hstart : I s₀)
    (hstep : ∀ {s a s' es}, I s → P s a → step s a = some (s', es) → I s') : I s := by
  induction h with
  | start => exact hstart
  | next _ cond taken ih => exact hstep ih cond taken

/-- An invariant that also speaks of what the steps have shown. -/
theorem invariantShown {I : List ε → σ → Prop} {es : List ε} {s : σ} (h : Run step P s₀ es s)
    (hstart : I [] s₀) (hstep : ∀ {shown s a s' es}, I shown s → P s a → step s a = some (s', es) →
      I (shown ++ es) s') : I es s := by
  induction h with
  | start => exact hstart
  | next _ cond taken ih => exact hstep ih cond taken

end Run

section Exec

variable (step P) [∀ s a, Decidable (P s a)]

/-- The run with the given actions, if all of them can be taken and meet the condition. -/
def exec (s : σ) : List α → Option (σ × List ε)
  | [] => some (s, [])
  | a :: as =>
    if P s a then
      match step s a with
      | none => none
      | some (s', es) => (exec s' as).map fun r => (r.1, es ++ r.2)
    else none

variable {step P}

theorem run_of_exec {s s' : σ} {as : List α} {es : List ε} (h : exec step P s as = some (s', es)) :
    Run step P s es s' := by
  induction as generalizing s es with
  | nil =>
    cases h
    exact .start
  | cons a as ih =>
    rw [exec] at h
    split_ifs at h with hP
    cases hstep : step s a with
    | none => simp [hstep] at h
    | some r =>
      rw [hstep] at h
      obtain ⟨⟨s₁, es₁⟩, hrun, hr⟩ := Option.map_eq_some_iff.mp h
      cases hr
      have hfirst : Run step P s ([] ++ r.2) r.1 := Run.start.next hP hstep
      exact Run.trans hfirst (ih hrun)

theorem exists_run_of_exec {β : Type} {f : σ × List ε → β} {s : σ} {as : List α} {b : β}
    (h : (exec step P s as).map f = some b) : ∃ s' es, Run step P s es s' ∧ f (s', es) = b := by
  obtain ⟨⟨s', es⟩, hexec, hb⟩ := Option.map_eq_some_iff.mp h
  exact ⟨s', es, run_of_exec hexec, hb⟩

end Exec

section Silent

/-- The states that runs of steps that show nothing reach. -/
inductive Reach (step : σ → α → Option σ) (P : σ → α → Prop) (s₀ : σ) : σ → Prop where
  | start : Reach step P s₀ s₀
  | next {s s' : σ} {a : α} (run : Reach step P s₀ s) (cond : P s a) (taken : step s a = some s') :
      Reach step P s₀ s'

variable {silent : σ → α → Option σ} {C : σ → α → Prop} {s₁ s₂ s₃ : σ}

theorem Reach.trans (h : Reach silent C s₁ s₂) (h' : Reach silent C s₂ s₃) :
    Reach silent C s₁ s₃ := by
  induction h' with
  | start => exact h
  | next _ cond taken ih => exact ih.next cond taken

theorem Reach.invariant {I : σ → Prop} (h : Reach silent C s₁ s₂) (hstart : I s₁)
    (hstep : ∀ {s a s'}, I s → C s a → silent s a = some s' → I s') : I s₂ := by
  induction h with
  | start => exact hstart
  | next _ cond taken ih => exact hstep ih cond taken

/-- The state after the given actions, if all of them can be taken. -/
def perform (silent : σ → α → Option σ) (s : σ) (as : List α) : Option σ := as.foldlM silent s

theorem reach_of_perform {as : List α} (hC : ∀ a ∈ as, ∀ s, C s a)
    (h : perform silent s₁ as = some s₂) : Reach silent C s₁ s₂ := by
  induction as generalizing s₁ with
  | nil =>
    cases h
    exact .start
  | cons a as ih =>
    rw [perform, List.foldlM_cons] at h
    obtain ⟨s, hs, hrest⟩ := Option.bind_eq_some_iff.mp h
    exact (Reach.start.next (hC a List.mem_cons_self s₁) hs).trans
      (ih (fun a' ha' => hC a' (List.mem_cons_of_mem _ ha')) hrest)

theorem reach_getD {as : List α} (hC : ∀ a ∈ as, ∀ s, C s a) (s : σ)
    (h : (perform silent s₁ as).isSome) : Reach silent C s₁ ((perform silent s₁ as).getD s) := by
  obtain ⟨s', hs'⟩ := Option.isSome_iff_exists.mp h
  rw [hs']
  exact reach_of_perform hC hs'

theorem perform_append {as bs : List α} :
    perform silent s₁ (as ++ bs) = (perform silent s₁ as).bind fun s => perform silent s bs := by
  simp [perform, List.foldlM_append]

/-- Where a step from a good state keeps an invariant exactly when it meets the condition,
the states of a run are good exactly when its steps meet the condition. -/
theorem good_iff_meets {I G : σ → Prop} (hgood : ∀ {s}, I s → G s) (hstart : I s₁)
    (hkeep : ∀ {s a s'}, I s → C s a → silent s a = some s' → I s')
    (hneed : ∀ {s a s'}, I s → silent s a = some s' → G s' → C s a) {as : List α}
    (h : perform silent s₁ as = some s₂) :
    (∀ before s, before <+: as → perform silent s₁ before = some s → G s) ↔
      ∀ before a s, before ++ [a] <+: as → perform silent s₁ before = some s → C s a := by
  constructor
  · intro hall
    induction as generalizing s₁ with
    | nil =>
      intro before a s hprefix
      exact absurd (List.prefix_nil.mp hprefix) (by simp)
    | cons b as ih =>
      rw [perform, List.foldlM_cons] at h
      obtain ⟨s', hs', hrest⟩ := Option.bind_eq_some_iff.mp h
      have hmeets : C s₁ b := by
        apply hneed hstart hs'
        apply hall [b] s' (by simp)
        simp [perform, hs']
      intro before a s hprefix hbefore
      cases before with
      | nil =>
        obtain ⟨rfl, -⟩ := List.cons_prefix_cons.mp hprefix
        cases hbefore
        exact hmeets
      | cons b' before =>
        obtain ⟨rfl, hrestPrefix⟩ := List.cons_prefix_cons.mp hprefix
        rw [perform, List.foldlM_cons, hs'] at hbefore
        refine ih (hkeep hstart hmeets hs') hrest ?_ before a s hrestPrefix hbefore
        intro earlier t ht hearlier
        apply hall (b' :: earlier) t (List.cons_prefix_cons.mpr ⟨rfl, ht⟩)
        rwa [perform, List.foldlM_cons, hs']
  · intro hall before s hprefix hbefore
    apply hgood
    induction before using List.reverseRecOn generalizing s with
    | nil =>
      cases hbefore
      exact hstart
    | append_singleton before a ih =>
      rw [perform_append] at hbefore
      obtain ⟨s', hs', hlast⟩ := Option.bind_eq_some_iff.mp hbefore
      have htaken : silent s' a = some s := by simpa [perform] using hlast
      have hI : I s' := ih s' ((List.prefix_append _ _).trans hprefix) hs'
      exact hkeep hI (hall before a s' hprefix hs') htaken

section Checked

variable (silent C) [∀ s a, Decidable (C s a)]

/-- The state after the given actions, if all of them can be taken and meet the condition. -/
def performIf (s : σ) (as : List α) : Option σ :=
  as.foldlM (fun s a => if C s a then silent s a else none) s

variable {silent C}

theorem reach_of_performIf {as : List α} (h : performIf silent C s₁ as = some s₂) :
    Reach silent C s₁ s₂ := by
  induction as generalizing s₁ with
  | nil =>
    cases h
    exact .start
  | cons a as ih =>
    rw [performIf, List.foldlM_cons] at h
    obtain ⟨s, hs, hrest⟩ := Option.bind_eq_some_iff.mp h
    split_ifs at hs with hcond
    exact (Reach.start.next hcond hs).trans (ih hrest)

theorem meets_of_performIf {as : List α} (h : performIf silent C s₁ as = some s₂) :
    perform silent s₁ as = some s₂ ∧
      ∀ before a s, before ++ [a] <+: as → perform silent s₁ before = some s → C s a := by
  induction as generalizing s₁ with
  | nil =>
    refine ⟨h, fun before a s hprefix => ?_⟩
    exact absurd (List.prefix_nil.mp hprefix) (by simp)
  | cons b as ih =>
    rw [performIf, List.foldlM_cons] at h
    obtain ⟨s, hs, hrest⟩ := Option.bind_eq_some_iff.mp h
    split_ifs at hs with hcond
    obtain ⟨hperform, hall⟩ := ih hrest
    constructor
    · rw [perform, List.foldlM_cons, hs]
      exact hperform
    · intro before a t hprefix hbefore
      cases before with
      | nil =>
        obtain ⟨rfl, -⟩ := List.cons_prefix_cons.mp hprefix
        cases hbefore
        exact hcond
      | cons b' before =>
        obtain ⟨rfl, hrestPrefix⟩ := List.cons_prefix_cons.mp hprefix
        rw [perform, List.foldlM_cons, hs] at hbefore
        exact hall before a t hrestPrefix hbefore

theorem reachIf_getD {as : List α} (s : σ) (h : (performIf silent C s₁ as).isSome) :
    Reach silent C s₁ ((performIf silent C s₁ as).getD s) := by
  obtain ⟨s', hs'⟩ := Option.isSome_iff_exists.mp h
  rw [hs']
  exact reach_of_performIf hs'

end Checked

end Silent

end Runs
