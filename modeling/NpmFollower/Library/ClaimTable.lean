import Mathlib

/-! # Work that is claimed in a table

A row of a table says whether its work is to do, started or done, and a second
table has what finished work gave. Workers claim rows that are to do, hold them
in memory until the result is stored, and may lose what they hold at any time.
Work is held by one worker at most and never done again once it has a result.
-/

namespace ClaimTable

inductive Status where
  | todo
  | started
  | done
deriving DecidableEq

structure Claims (ι κ : Type) where
  status : κ → Option Status
  finished : Set κ
  held : ι → List κ

section Steps

variable {ι κ : Type}

/-- A row that is not there stays away; of the others, those with the property get a new status. -/
def restate (status : κ → Option Status) (p : κ → Status → Bool) (new : Status) (k : κ) :
    Option Status :=
  (status k).map fun s => if p k s then new else s

section Restate

variable {status : κ → Option Status} {p : κ → Status → Bool} {new s : Status} {k : κ}

theorem restate_eq_none : restate status p new k = none ↔ status k = none := by
  simp [restate]

theorem restate_eq_some : restate status p new k = some s ↔
    ∃ old, status k = some old ∧ (p k old ∧ s = new ∨ ¬ p k old ∧ s = old) := by
  rw [restate, Option.map_eq_some_iff]
  refine exists_congr fun old => and_congr_right fun _ => ?_
  by_cases hp : p k old
  · simp [hp, eq_comm]
  · simp [hp, eq_comm]

/-- A status other than the new one is that of before. -/
theorem of_restate (hne : s ≠ new) (h : restate status p new k = some s) : status k = some s := by
  obtain ⟨old, hold, ⟨-, hs⟩ | ⟨-, rfl⟩⟩ := restate_eq_some.mp h
  · exact absurd hs hne
  · exact hold

end Restate

/-- Work in hand is started, without a result and in one hand, and a row is to do only without a
result and done only with one. -/
structure Sound (c : Claims ι κ) : Prop where
  nodup : ∀ i, (c.held i).Nodup
  apart : ∀ i j, i ≠ j → (c.held i).Disjoint (c.held j)
  started : ∀ i, ∀ k ∈ c.held i, c.status k = some .started
  unfinished : ∀ i, ∀ k ∈ c.held i, k ∉ c.finished
  todo : ∀ k, c.status k = some .todo → k ∉ c.finished
  done : ∀ k, c.status k = some .done → k ∈ c.finished
  known : ∀ k ∈ c.finished, c.status k ≠ none

variable {c c' : Claims ι κ} {i : ι} {ks : List κ}

theorem nodup_of_subperm {l l' : List κ} (h : l.Subperm l') (hl' : l'.Nodup) : l.Nodup := by
  obtain ⟨l'', hperm, hsub⟩ := h
  exact hperm.nodup_iff.mp (hsub.nodup hl')

theorem Sound.mark (h : Sound c) {p : κ → Status → Bool}
    (hp : ∀ k s, p k s → k ∈ c.finished) :
    Sound { c with status := restate c.status p .done } := by
  refine { h with
    started := fun j k hk => ?_
    todo := fun k hk => h.todo k (of_restate (by decide) hk)
    done := fun k hk => ?_
    known := fun k hk hnone => h.known k hk (restate_eq_none.mp hnone) }
  · refine restate_eq_some.mpr ⟨_, h.started j k hk, Or.inr ⟨fun hpk => ?_, rfl⟩⟩
    exact h.unfinished j k hk (hp k _ hpk)
  · obtain ⟨old, hold, ⟨hpk, -⟩ | ⟨-, rfl⟩⟩ := restate_eq_some.mp hk
    · exact hp k _ hpk
    · exact h.done k hold

/-- Started work is given back only when no hand holds any. -/
theorem Sound.revive (h : Sound c) {p : κ → Status → Bool}
    (hp : ∀ k s, p k s → k ∉ c.finished) (hidle : (∀ i, c.held i = []) ∨ ∀ k, p k .started = false) :
    Sound { c with status := restate c.status p .todo } := by
  refine { h with
    started := fun j k hk => ?_
    todo := fun k hk => ?_
    done := fun k hk => h.done k (of_restate (by decide) hk)
    known := fun k hk hnone => h.known k hk (restate_eq_none.mp hnone) }
  · refine restate_eq_some.mpr ⟨_, h.started j k hk, Or.inr ⟨?_, rfl⟩⟩
    rcases hidle with hidle | hstarted
    · rw [hidle j] at hk
      cases hk
    · simp [hstarted k]
  · obtain ⟨old, hold, ⟨hpk, -⟩ | ⟨-, rfl⟩⟩ := restate_eq_some.mp hk
    · exact hp k _ hpk
    · exact h.todo k hold

variable [DecidableEq ι]

/-- A hand that holds no more than before and nothing twice. -/
theorem Sound.shrink (h : Sound c) (hks : ks.Subperm (c.held i)) :
    Sound { c with held := Function.update c.held i ks } := by
  have hsub : ∀ j, (Function.update c.held i ks j).Subperm (c.held j) := by
    intro j
    by_cases hj : j = i
    · subst hj
      rwa [Function.update_self]
    · rw [Function.update_of_ne hj]
  exact { h with
    nodup := fun j => nodup_of_subperm (hsub j) (h.nodup j)
    apart := fun j j' hne k hk hk' => h.apart j j' hne ((hsub j).subset hk) ((hsub j').subset hk')
    started := fun j k hk => h.started j k ((hsub j).subset hk)
    unfinished := fun j k hk => h.unfinished j k ((hsub j).subset hk) }

/-- The result of work in hand is stored, and the work leaves the hand. -/
theorem Sound.finish (h : Sound c) {k : κ} (hks : (k :: ks).Subperm (c.held i)) :
    Sound { c with finished := insert k c.finished, held := Function.update c.held i ks } := by
  have hk : k ∈ c.held i := hks.subset List.mem_cons_self
  have hshrunk := h.shrink ((List.sublist_cons_self k ks).subperm.trans hks)
  have hgone : ∀ j, k ∉ Function.update c.held i ks j := by
    intro j hmem
    by_cases hj : j = i
    · subst hj
      rw [Function.update_self] at hmem
      exact (List.nodup_cons.mp (nodup_of_subperm hks (h.nodup j))).1 hmem
    · rw [Function.update_of_ne hj] at hmem
      exact h.apart j i hj hmem hk
  have hstarted := h.started i k hk
  refine { hshrunk with
    unfinished := fun j k' hk' hmem => ?_
    todo := fun k' hk' hmem => ?_
    done := fun k' hk' => Set.mem_insert_of_mem _ (h.done k' hk')
    known := fun k' hmem => ?_ }
  · rcases hmem with rfl | hmem
    · exact hgone j hk'
    · exact hshrunk.unfinished j k' hk' hmem
  · rcases hmem with rfl | hmem
    · cases hk'.symm.trans hstarted
    · exact h.todo k' hk' hmem
  · rcases hmem with rfl | hmem
    · exact fun hnone => Option.some_ne_none _ (hstarted.symm.trans hnone)
    · exact h.known k' hmem

theorem Sound.claim (h : Sound c) {p : κ → Status → Bool} (hp : ∀ k s, p k s = true ↔ k ∈ ks)
    (hnodup : ks.Nodup) (htodo : ∀ k ∈ ks, c.status k = some .todo) :
    Sound { c with
      status := restate c.status p .started
      held := Function.update c.held i (ks ++ c.held i) } := by
  have hfree : ∀ j, ∀ k ∈ ks, k ∉ c.held j := by
    intro j k hk hheld
    cases (htodo k hk).symm.trans (h.started j k hheld)
  have hmem : ∀ j k, k ∈ Function.update c.held i (ks ++ c.held i) j →
      k ∈ ks ∧ j = i ∨ k ∈ c.held j := by
    intro j k hk
    by_cases hj : j = i
    · subst hj
      rw [Function.update_self] at hk
      exact (List.mem_append.mp hk).imp_left fun hk => ⟨hk, rfl⟩
    · rw [Function.update_of_ne hj] at hk
      exact Or.inr hk
  have hnodupHeld : ∀ j, (Function.update c.held i (ks ++ c.held i) j).Nodup := by
    intro j
    by_cases hj : j = i
    · subst hj
      rw [Function.update_self]
      exact hnodup.append (h.nodup j) fun k hk => hfree j k hk
    · rw [Function.update_of_ne hj]
      exact h.nodup j
  have hback : ∀ k s, s ≠ .started →
      restate c.status p .started k = some s → c.status k = some s :=
    fun _ _ => of_restate
  have hnone : ∀ k, restate c.status p .started k = none →
      c.status k = none :=
    fun _ => restate_eq_none.mp
  have hstarted : ∀ j, ∀ k ∈ Function.update c.held i (ks ++ c.held i) j,
      restate c.status p .started k = some .started := by
    intro j k hk
    refine restate_eq_some.mpr ?_
    rcases hmem j k hk with ⟨hnew, -⟩ | hold
    · exact ⟨.todo, htodo k hnew, Or.inl ⟨(hp k _).mpr hnew, rfl⟩⟩
    · exact ⟨.started, h.started j k hold,
        Or.inr ⟨fun hnew => hfree j k ((hp k _).mp hnew) hold, rfl⟩⟩
  refine {
    nodup := hnodupHeld
    apart := fun j j' hne k hk hk' => ?_
    started := hstarted
    unfinished := fun j k hk => ?_
    todo := fun k hk => h.todo k (hback k _ (by decide) hk)
    done := fun k hk => h.done k (hback k _ (by decide) hk)
    known := fun k hk hgone => h.known k hk (hnone k hgone) }
  · rcases hmem j k hk with ⟨hnew, rfl⟩ | hold <;> rcases hmem j' k hk' with ⟨hnew', rfl⟩ | hold'
    · exact hne rfl
    · exact hfree j' k hnew hold'
    · exact hfree j k hnew' hold
    · exact h.apart j j' hne hold hold'
  · rcases hmem j k hk with ⟨hnew, -⟩ | hold
    · exact h.todo k (htodo k hnew)
    · exact h.unfinished j k hold

variable [DecidableEq κ]

inductive Step (c : Claims ι κ) : Claims ι κ → Prop where
  | add (k : κ) (hk : c.status k = none) :
      Step c { c with status := Function.update c.status k (some .todo) }
  | claim (i : ι) (ks : List κ) (p : κ → Status → Bool) (hp : ∀ k s, p k s = true ↔ k ∈ ks)
      (hnodup : ks.Nodup) (htodo : ∀ k ∈ ks, c.status k = some .todo) :
      Step c { c with
        status := restate c.status p .started
        held := Function.update c.held i (ks ++ c.held i) }
  | drop (i : ι) (ks : List κ) (hks : ks.Subperm (c.held i)) :
      Step c { c with held := Function.update c.held i ks }
  | finish (i : ι) (k : κ) (ks : List κ) (hks : (k :: ks).Subperm (c.held i)) :
      Step c { c with finished := insert k c.finished, held := Function.update c.held i ks }
  | mark (p : κ → Status → Bool) (hp : ∀ k s, p k s → k ∈ c.finished) :
      Step c { c with status := restate c.status p .done }
  | revive (p : κ → Status → Bool)
      (hp : ∀ k s, p k s → k ∉ c.finished) (hidle : (∀ i, c.held i = []) ∨ ∀ k, p k .started = false) :
      Step c { c with status := restate c.status p .todo }
  | reset (hidle : ∀ i, c.held i = []) :
      Step c { c with status := restate c.status (fun _ _ => true) .todo, finished := ∅ }

theorem Sound.step (h : Sound c) (hstep : Step c c') : Sound c' := by
  cases hstep with
  | add k hk =>
    have hother : ∀ k' s, c.status k' = some s →
        Function.update c.status k (some .todo) k' = some s := by
      intro k' s hs
      have hne : k' ≠ k := fun heq => Option.some_ne_none s (hs.symm.trans (heq ▸ hk))
      rwa [Function.update_of_ne hne]
    have hcases : ∀ k' s, Function.update c.status k (some .todo) k' = some s →
        k' = k ∧ s = .todo ∨ c.status k' = some s := by
      intro k' s hs
      by_cases hne : k' = k
      · rw [hne, Function.update_self] at hs
        exact Or.inl ⟨hne, (Option.some.inj hs).symm⟩
      · rw [Function.update_of_ne hne] at hs
        exact Or.inr hs
    refine { h with
      started := fun j k' hk' => hother k' _ (h.started j k' hk')
      todo := fun k' hk' => ?_
      done := fun k' hk' => ?_
      known := fun k' hk' => ?_ }
    · rcases hcases k' _ hk' with ⟨rfl, -⟩ | hold
      · exact fun hmem => h.known k' hmem hk
      · exact h.todo k' hold
    · rcases hcases k' _ hk' with ⟨-, hs⟩ | hold
      · cases hs
      · exact h.done k' hold
    · obtain ⟨s, hs⟩ := Option.ne_none_iff_exists'.mp (h.known k' hk')
      exact Option.ne_none_iff_exists'.mpr ⟨s, hother k' s hs⟩
  | claim i ks p hp hnodup htodo => exact h.claim hp hnodup htodo
  | drop i ks hks => exact h.shrink hks
  | finish i k ks hks => exact h.finish hks
  | mark p hp => exact h.mark hp
  | revive p hp hidle => exact h.revive hp hidle
  | reset hidle =>
    refine {
      nodup := h.nodup
      apart := h.apart
      started := fun j k hk => ?_
      unfinished := fun j k hk => Set.notMem_empty k
      todo := fun k _ => Set.notMem_empty k
      done := fun k hk => ?_
      known := fun k hk => absurd hk (Set.notMem_empty k) }
    · rw [hidle j] at hk
      cases hk
    · have hrestated : restate c.status (fun _ _ => true) .todo k = some .done := hk
      obtain ⟨old, -, ⟨-, hs⟩ | ⟨hnot, -⟩⟩ := restate_eq_some.mp hrestated
      · cases hs
      · exact absurd rfl hnot

theorem Sound.steps (h : Sound c) (hsteps : Relation.ReflTransGen Step c c') : Sound c' := by
  induction hsteps with
  | refl => exact h
  | tail _ hstep ih => exact ih.step hstep

end Steps

end ClaimTable
