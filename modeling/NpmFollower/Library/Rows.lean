import Mathlib

/-! # Rows found by a key

Lists of rows in which each key stands once. A row is found by its key, and the
rows with a key can be changed in place.
-/

namespace Rows

variable {ρ κ : Type} [DecidableEq κ] (key : ρ → κ)

def find (l : List ρ) (k : κ) : Option ρ := l.find? fun r => key r = k

/-- Every row with the key is changed. -/
def updateWhere (l : List ρ) (k : κ) (f : ρ → ρ) : List ρ :=
  l.map fun r => if key r = k then f r else r

variable {key} {l : List ρ} {k : κ} {r : ρ} {f : ρ → ρ}

theorem mem_of_find (h : find key l k = some r) : r ∈ l := List.mem_of_find?_eq_some h

theorem key_of_find (h : find key l k = some r) : key r = k := by
  simpa using List.find?_some h

theorem find_eq_none_iff : find key l k = none ↔ ∀ r ∈ l, key r ≠ k := by
  simp [find]

theorem find_of_mem (hl : (l.map key).Nodup) (hr : r ∈ l) : find key l (key r) = some r := by
  cases h : find key l (key r) with
  | none => exact absurd rfl (find_eq_none_iff.mp h r hr)
  | some r' => rw [List.inj_on_of_nodup_map hl (mem_of_find h) hr (key_of_find h)]

theorem find_append_singleton (l : List ρ) (r : ρ) (k : κ) :
    find key (l ++ [r]) k = (find key l k).or (if key r = k then some r else none) := by
  rw [find, List.find?_append]
  congr 1
  by_cases hr : key r = k <;> simp [hr]

theorem find_map (hf : ∀ r, key (f r) = key r) (l : List ρ) (k : κ) :
    find key (l.map f) k = (find key l k).map f := by
  rw [find, List.find?_map]
  congr 2
  funext r
  simp [hf]

theorem map_key_updateWhere (hf : ∀ r, key (f r) = key r) (l : List ρ) (k : κ) :
    (updateWhere key l k f).map key = l.map key := by
  rw [updateWhere, List.map_map]
  refine List.map_congr_left fun r _ => ?_
  simp only [Function.comp_apply]
  split_ifs
  · exact hf r
  · rfl

/-- An update of other columns keeps every function of the rows that it keeps on each row. -/
theorem map_updateWhere {α : Type} {g : ρ → α} (hg : ∀ r, g (f r) = g r) (l : List ρ) (k : κ) :
    (updateWhere key l k f).map g = l.map g := by
  rw [updateWhere, List.map_map]
  refine List.map_congr_left fun r _ => ?_
  simp only [Function.comp_apply]
  split_ifs
  · exact hg r
  · rfl

theorem find_updateWhere (hf : ∀ r, key (f r) = key r) (l : List ρ) (k j : κ) :
    find key (updateWhere key l k f) j = (find key l j).map fun r => if key r = k then f r else r := by
  refine find_map (fun r => ?_) l j
  split_ifs
  · exact hf r
  · rfl

/-- An update of the one row with a key exchanges its part of a sum. -/
theorem sum_map_updateWhere (hl : (l.map key).Nodup) (hr : r ∈ l) (g : ρ → ℤ) :
    ((updateWhere key l (key r) f).map g).sum = (l.map g).sum - g r + g (f r) := by
  induction l with
  | nil => cases hr
  | cons a l ih =>
    rw [List.map_cons, List.nodup_cons] at hl
    rw [updateWhere, List.map_cons, List.map_cons, List.sum_cons, List.map_cons, List.sum_cons]
    rcases List.mem_cons.mp hr with rfl | hr
    · have hrest : (l.map fun r' => if key r' = key r then f r' else r') = l := by
        refine (List.map_congr_left fun r' hr' => if_neg fun h => ?_).trans (List.map_id l)
        exact hl.1 (h ▸ List.mem_map_of_mem hr')
      rw [if_pos rfl, hrest]
      ring
    · have hne : key a ≠ key r := fun h => hl.1 (h ▸ List.mem_map_of_mem hr)
      have hih := ih hl.2 hr
      rw [updateWhere] at hih
      rw [if_neg hne, hih]
      ring

theorem length_filter_key (hl : (l.map key).Nodup) (hr : r ∈ l) :
    (l.filter fun r' => key r' = key r).length = 1 := by
  have hcount := List.count_eq_one_of_mem hl (List.mem_map_of_mem hr)
  rw [List.count, List.countP_map, List.countP_eq_length_filter] at hcount
  rw [← hcount]
  congr 1

theorem mem_updateWhere {r' : ρ} :
    r' ∈ updateWhere key l k f ↔ ∃ r ∈ l, (if key r = k then f r else r) = r' :=
  List.mem_map

end Rows
