import Mathlib

/-! # Write-back caches

A store with a cache in front of it. A write to a cached key reaches the store
only when the key is evicted or the cache is flushed. What counts is the view:
the cached value where there is one, else the stored one.
-/

namespace WriteBack

variable {κ ν : Type}

@[ext] structure State (κ ν : Type) where
  store : κ → Option ν
  cached : κ → Option ν
  dirty : Set κ

/-- Clean entries agree with the store, dirty keys are cached, and cached keys are stored. -/
structure Coherent (s : State κ ν) : Prop where
  dirty_cached : ∀ k ∈ s.dirty, (s.cached k).isSome
  clean : ∀ k v, s.cached k = some v → k ∉ s.dirty → s.store k = some v
  stored : ∀ k, (s.cached k).isSome → (s.store k).isSome

def State.view (s : State κ ν) (k : κ) : Option ν := (s.cached k).or (s.store k)

theorem State.view_of_cached {s : State κ ν} {k : κ} {v : ν} (h : s.cached k = some v) :
    s.view k = some v := by
  rw [view, h, Option.some_or]

theorem State.view_of_not_cached {s : State κ ν} {k : κ} (h : s.cached k = none) :
    s.view k = s.store k := by
  rw [view, h, Option.none_or]

namespace Coherent

variable {s : State κ ν}

/-- A key with nothing to write back is seen as it is stored. -/
theorem view_of_not_dirty (h : Coherent s) {k : κ} (hk : k ∉ s.dirty) : s.view k = s.store k := by
  cases hc : s.cached k with
  | none => exact State.view_of_not_cached hc
  | some v => rw [State.view_of_cached hc, h.clean k v hc hk]

theorem view_isSome (h : Coherent s) (k : κ) : (s.view k).isSome ↔ (s.store k).isSome := by
  rw [State.view]
  cases hc : s.cached k with
  | none => rfl
  | some v => simpa using h.stored k (by simp [hc])

end Coherent

variable [DecidableEq κ]

namespace State

/-- A write to a cached key. -/
def write (s : State κ ν) (k : κ) (v : ν) : State κ ν :=
  { s with cached := Function.update s.cached k (some v), dirty := insert k s.dirty }

/-- A write to a key that is not cached: it is stored and then cached. -/
def load (s : State κ ν) (k : κ) (v : ν) : State κ ν :=
  { s with store := Function.update s.store k (some v), cached := Function.update s.cached k (some v) }

open Classical in
/-- The key leaves the cache, and is written back if it has to be. -/
noncomputable def evict (s : State κ ν) (k : κ) : State κ ν where
  store := if k ∈ s.dirty then Function.update s.store k (s.cached k) else s.store
  cached := Function.update s.cached k none
  dirty := s.dirty \ {k}

/-- The key is written back and stays in the cache, still marked. -/
def writeBack (s : State κ ν) (k : κ) : State κ ν :=
  { s with store := Function.update s.store k (s.cached k) }

section Apply

variable (s : State κ ν) (k j : κ) (v : ν)

theorem write_cached : (s.write k v).cached j = if j = k then some v else s.cached j :=
  Function.update_apply ..

theorem load_store : (s.load k v).store j = if j = k then some v else s.store j :=
  Function.update_apply ..

theorem load_cached : (s.load k v).cached j = if j = k then some v else s.cached j :=
  Function.update_apply ..

theorem evict_cached : (s.evict k).cached j = if j = k then none else s.cached j :=
  Function.update_apply ..

theorem evict_store_of_dirty (hk : k ∈ s.dirty) :
    (s.evict k).store j = if j = k then s.cached k else s.store j := by
  rw [evict, if_pos hk]
  exact Function.update_apply ..

theorem evict_store_of_clean (hk : k ∉ s.dirty) : (s.evict k).store = s.store := by
  rw [evict, if_neg hk]

theorem writeBack_store : (s.writeBack k).store j = if j = k then s.cached k else s.store j :=
  Function.update_apply ..

end Apply

theorem view_write (s : State κ ν) (k : κ) (v : ν) :
    (s.write k v).view = Function.update s.view k (some v) := by
  funext j
  by_cases hj : j = k
  · subst hj
    simp [view, write]
  · simp [view, write, hj]

theorem view_load (s : State κ ν) (k : κ) (v : ν) :
    (s.load k v).view = Function.update s.view k (some v) := by
  funext j
  by_cases hj : j = k
  · subst hj
    simp [view, load]
  · simp [view, load, hj]

end State

namespace Coherent

variable {s : State κ ν}

theorem write (h : Coherent s) {k : κ} (hk : (s.cached k).isSome) (v : ν) :
    Coherent (s.write k v) where
  dirty_cached j hj := by
    by_cases hjk : j = k
    · simp [State.write, hjk]
    · simpa [State.write, hjk] using h.dirty_cached j (by simpa [State.write, hjk] using hj)
  clean j w hc hj := by
    have hjk : j ≠ k := by
      rintro rfl
      exact hj (by simp [State.write])
    exact h.clean j w (by simpa [State.write, hjk] using hc) (by simpa [State.write, hjk] using hj)
  stored j hj := by
    by_cases hjk : j = k
    · exact hjk ▸ h.stored k hk
    · exact h.stored j (by simpa [State.write, hjk] using hj)

theorem load (h : Coherent s) {k : κ} (hk : s.cached k = none) (v : ν) : Coherent (s.load k v) where
  dirty_cached j hj := by
    by_cases hjk : j = k
    · simp [State.load, hjk]
    · simpa [State.load, hjk] using h.dirty_cached j hj
  clean j w hc hj := by
    by_cases hjk : j = k
    · subst hjk
      simpa [State.load] using hc
    · simpa [State.load, hjk] using h.clean j w (by simpa [State.load, hjk] using hc) hj
  stored j hj := by
    by_cases hjk : j = k
    · simp [State.load, hjk]
    · simpa [State.load, hjk] using h.stored j (by simpa [State.load, hjk] using hj)

theorem view_evict (h : Coherent s) (k : κ) :
    (s.evict k).view = s.view := by
  funext j
  by_cases hjk : j = k
  · subst hjk
    have hcached : (s.evict j).cached j = none := by simp [State.evict]
    rw [State.view_of_not_cached hcached]
    by_cases hj : j ∈ s.dirty
    · obtain ⟨v, hv⟩ := Option.isSome_iff_exists.mp (h.dirty_cached j hj)
      simp [State.evict, hj, State.view_of_cached hv, hv]
    · simp [State.evict, hj, h.view_of_not_dirty hj]
  · by_cases hk : k ∈ s.dirty <;> simp [State.view, State.evict, hjk, hk]

theorem evict (h : Coherent s) (k : κ) : Coherent (s.evict k) where
  dirty_cached j hj := by
    have hjk : j ≠ k := by simpa using hj.2
    simpa [State.evict, hjk] using h.dirty_cached j hj.1
  clean j w hc hj := by
    by_cases hjk : j = k
    · subst hjk
      simp [State.evict] at hc
    · have hclean := h.clean j w (by simpa [State.evict, hjk] using hc)
        fun hd => hj ⟨hd, by simpa using hjk⟩
      by_cases hk : k ∈ s.dirty <;> simpa [State.evict, hk, hjk] using hclean
  stored j hj := by
    by_cases hjk : j = k
    · subst hjk
      simp [State.evict] at hj
    · have hstored := h.stored j (by simpa [State.evict, hjk] using hj)
      by_cases hk : k ∈ s.dirty <;> simpa [State.evict, hk, hjk] using hstored

/-- Writing back a cached key changes neither the view nor what is cached. -/
theorem view_writeBack {k : κ} (hk : (s.cached k).isSome) : (s.writeBack k).view = s.view := by
  obtain ⟨v, hv⟩ := Option.isSome_iff_exists.mp hk
  funext j
  by_cases hjk : j = k
  · subst hjk
    simp [State.view, State.writeBack, hv]
  · simp [State.view, State.writeBack, hjk]

theorem writeBack (h : Coherent s) {k : κ} (hk : (s.cached k).isSome) :
    Coherent (s.writeBack k) where
  dirty_cached := h.dirty_cached
  clean j w hc hj := by
    by_cases hjk : j = k
    · subst hjk
      simpa [State.writeBack] using hc
    · simpa [State.writeBack, hjk] using h.clean j w hc hj
  stored j hj := by
    by_cases hjk : j = k
    · subst hjk
      simpa [State.writeBack] using hk
    · simpa [State.writeBack, hjk] using h.stored j hj

end Coherent

end WriteBack
