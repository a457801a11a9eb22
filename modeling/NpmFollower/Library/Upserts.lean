import NpmFollower.Library.Rows

/-! # Inserts that meet a row with the same key

A table holds at most one row for a key. An upsert puts the new row in the place
of the old one, and the other insert leaves the old one alone. Either way the
rows of many statements are told by the last, or by the first, about each key.
-/

namespace Rows

variable {ρ κ : Type} [DecidableEq κ] (key : ρ → κ)

/-- `ON CONFLICT DO UPDATE` of every column. -/
def upsert (l : List ρ) (r : ρ) : List ρ :=
  if l.any (key · = key r) then updateWhere key l (key r) fun _ => r else l ++ [r]

/-- `ON CONFLICT DO NOTHING`. -/
def insertMissing (l : List ρ) (r : ρ) : List ρ := if l.any (key · = key r) then l else l ++ [r]

/-- `DELETE … WHERE key IN …`. -/
def deleteKeys (l : List ρ) (keys : List κ) : List ρ := l.filter fun r => key r ∉ keys

variable {key} {l : List ρ} {r x : ρ}

theorem any_key_iff {k : κ} : l.any (key · = k) = true ↔ k ∈ l.map key := by
  simp

theorem mem_upsert : x ∈ upsert key l r ↔ x = r ∨ x ∈ l ∧ key x ≠ key r := by
  rw [upsert]
  split_ifs with h
  · obtain ⟨y, hy, hkey⟩ := List.mem_map.mp (any_key_iff.mp h)
    rw [updateWhere, List.mem_map]
    constructor
    · rintro ⟨z, hz, rfl⟩
      split_ifs with hzr
      · exact Or.inl rfl
      · exact Or.inr ⟨hz, hzr⟩
    · rintro (rfl | ⟨hx, hne⟩)
      · exact ⟨y, hy, by simp [hkey]⟩
      · exact ⟨x, hx, by simp [hne]⟩
  · have hall : ∀ z ∈ l, key z ≠ key r := fun z hz heq =>
      h (any_key_iff.mpr (List.mem_map.mpr ⟨z, hz, heq⟩))
    rw [List.mem_append, List.mem_singleton, or_comm]
    exact or_congr_right ⟨fun hx => ⟨hx, hall x hx⟩, And.left⟩

theorem nodup_upsert (hl : (l.map key).Nodup) : ((upsert key l r).map key).Nodup := by
  rw [upsert]
  split_ifs with h
  · have hsame : (updateWhere key l (key r) fun _ => r).map key = l.map key := by
      rw [updateWhere, List.map_map]
      refine List.map_congr_left fun y _ => ?_
      simp only [Function.comp_apply]
      split_ifs with hy
      · exact hy.symm
      · rfl
    rwa [hsame]
  · rw [List.map_append, List.map_singleton]
    exact (List.nodup_append_comm.mp (List.nodup_cons.mpr ⟨fun hmem => h (any_key_iff.mpr hmem), hl⟩))

theorem nodup_foldl_upsert {rs : List ρ} (hl : (l.map key).Nodup) :
    ((rs.foldl (upsert key) l).map key).Nodup := by
  induction rs generalizing l with
  | nil => exact hl
  | cons r rs ih => exact ih (nodup_upsert hl)

/-- After the upserts of distinct rows, they and the rows with other keys are there. -/
theorem mem_foldl_upsert {rs : List ρ} (hrs : (rs.map key).Nodup) :
    x ∈ rs.foldl (upsert key) l ↔ x ∈ rs ∨ x ∈ l ∧ key x ∉ rs.map key := by
  induction rs generalizing l with
  | nil => simp
  | cons r rs ih =>
    rw [List.map_cons, List.nodup_cons] at hrs
    rw [List.foldl_cons, ih hrs.2, mem_upsert, List.mem_cons, List.map_cons, List.mem_cons]
    by_cases hx : x = r
    · subst hx
      simp [hrs.1]
    · simp only [hx, false_or, not_or]
      tauto

theorem mem_insertMissing :
    x ∈ insertMissing key l r ↔ x ∈ l ∨ x = r ∧ key r ∉ l.map key := by
  rw [insertMissing]
  split_ifs with h
  · have hmem := any_key_iff.mp h
    exact ⟨Or.inl, fun hx => hx.elim id fun hx => absurd hmem hx.2⟩
  · have hnot : key r ∉ l.map key := fun hmem => h (any_key_iff.mpr hmem)
    rw [List.mem_append, List.mem_singleton]
    exact or_congr_right ⟨fun hx => ⟨hx, hnot⟩, And.left⟩

theorem nodup_insertMissing (hl : (l.map key).Nodup) :
    ((insertMissing key l r).map key).Nodup := by
  rw [insertMissing]
  split_ifs with h
  · exact hl
  · rw [List.map_append, List.map_singleton]
    exact List.nodup_append_comm.mp
      (List.nodup_cons.mpr ⟨fun hmem => h (any_key_iff.mpr hmem), hl⟩)

theorem nodup_foldl_insertMissing {rs : List ρ} (hl : (l.map key).Nodup) :
    ((rs.foldl (insertMissing key) l).map key).Nodup := by
  induction rs generalizing l with
  | nil => exact hl
  | cons r rs ih => exact ih (nodup_insertMissing hl)

theorem mem_of_mem_foldl_insertMissing {rs : List ρ}
    (hx : x ∈ rs.foldl (insertMissing key) l) : x ∈ l ∨ x ∈ rs := by
  induction rs generalizing l with
  | nil => exact Or.inl hx
  | cons r rs ih =>
    rcases ih hx with hx | hx
    · rcases mem_insertMissing.mp hx with hx | ⟨rfl, -⟩
      · exact Or.inl hx
      · exact Or.inr List.mem_cons_self
    · exact Or.inr (List.mem_cons_of_mem _ hx)

theorem subset_foldl_insertMissing {rs : List ρ} : l ⊆ rs.foldl (insertMissing key) l := by
  induction rs generalizing l with
  | nil => exact fun _ hx => hx
  | cons r rs ih => exact fun _ hx => ih (mem_insertMissing.mpr (Or.inl hx))

theorem mem_keys_foldl_insertMissing {rs : List ρ} (hr : r ∈ rs) :
    key r ∈ (rs.foldl (insertMissing key) l).map key := by
  induction rs generalizing l with
  | nil => exact absurd hr List.not_mem_nil
  | cons r' rs ih =>
    rcases List.mem_cons.mp hr with rfl | hr
    · rw [List.foldl_cons]
      have hmem : key r ∈ (insertMissing key l r).map key := by
        by_cases h : key r ∈ l.map key
        · rwa [insertMissing, if_pos (any_key_iff.mpr h)]
        · exact List.mem_map_of_mem (mem_insertMissing.mpr (Or.inr ⟨rfl, h⟩))
      exact List.map_subset key subset_foldl_insertMissing hmem
    · exact ih hr

theorem mem_deleteKeys {keys : List κ} : x ∈ deleteKeys key l keys ↔ x ∈ l ∧ key x ∉ keys := by
  simp [deleteKeys]

end Rows
