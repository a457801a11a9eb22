import NpmFollower.Library.Tiling
import NpmFollower.DatabaseExporting.Avc

/-! # Changes cut into chunks

Changes larger than `MAX_SIZE` leave a remainder at the end of the list. For
every path, the pieces still lie end to end in the order of the list, from where
the staged change starts to where it ends.
-/

namespace NpmFollower.DatabaseExporting

open Tiling

/-- The part of a file that a change is about. -/
structure Extent where
  path : Path
  type : ChangeType
  startOffset : ℤ
  numBytes : ℤ
  deriving DecidableEq, Repr

def StagedChange.extent (s : StagedChange) : Extent := ⟨s.path, s.type, s.startOffset, s.numBytes⟩

def CommitChange.extent (c : CommitChange) : Extent := ⟨c.path, c.type, c.startOffset, c.numBytes⟩

abbrev ExtentTiles : ℤ → ℤ → List Extent → Prop := Tiles Extent.startOffset Extent.numBytes

/-- The parts of one file, in the order of the list. -/
def extentsOf (path : Path) (changes : List StagedChange) : List Extent :=
  (changes.map StagedChange.extent).filter (·.path = path)

section Lists

variable {path : Path} {s : StagedChange} {q r : List StagedChange}

@[simp] theorem extentsOf_nil : extentsOf path [] = [] := rfl

@[simp] theorem extentsOf_append : extentsOf path (q ++ r) = extentsOf path q ++ extentsOf path r := by
  simp [extentsOf]

theorem extentsOf_cons_same (h : s.path = path) :
    extentsOf path (s :: q) = s.extent :: extentsOf path q := by
  simp [extentsOf, StagedChange.extent, h]

theorem extentsOf_cons_other (h : s.path ≠ path) : extentsOf path (s :: q) = extentsOf path q := by
  simp [extentsOf, StagedChange.extent, h]

theorem extentsOf_absent (h : path ∉ q.map StagedChange.path) : extentsOf path q = [] := by
  rw [extentsOf, List.filter_eq_nil_iff]
  intro e he
  obtain ⟨s, hs, rfl⟩ := List.mem_map.mp he
  have hne : s.path ≠ path := fun heq => h (heq ▸ List.mem_map_of_mem hs)
  simp [StagedChange.extent, hne]

/-- Of changes of distinct files, one is about a given file. -/
theorem extentsOf_of_nodup (hnodup : (q.map StagedChange.path).Nodup) (hs : s ∈ q) :
    extentsOf s.path q = [s.extent] := by
  induction q with
  | nil => exact absurd hs List.not_mem_nil
  | cons t q ih =>
    rw [List.map_cons, List.nodup_cons] at hnodup
    rcases List.mem_cons.mp hs with rfl | hs
    · rw [extentsOf_cons_same rfl, extentsOf_absent hnodup.1]
    · have hne : t.path ≠ s.path := fun heq => hnodup.1 (heq ▸ List.mem_map_of_mem hs)
      rw [extentsOf_cons_other hne, ih hnodup.2 hs]

end Lists

section Split

variable {maxSize : ℤ} {s : StagedChange} {q : List StagedChange}

@[simp] theorem cut_path : (s.cut maxSize).path = s.path := by
  unfold StagedChange.cut
  split_ifs <;> rfl

@[simp] theorem cut_type : (s.cut maxSize).type = s.type := by
  unfold StagedChange.cut
  split_ifs <;> rfl

@[simp] theorem cut_startOffset : (s.cut maxSize).startOffset = s.startOffset := by
  unfold StagedChange.cut
  split_ifs <;> rfl

@[simp] theorem cut_backingPath : (s.cut maxSize).backingPath = s.backingPath := by
  unfold StagedChange.cut
  split_ifs <;> rfl

@[simp] theorem cut_backingOffset : (s.cut maxSize).backingOffset = s.backingOffset := by
  unfold StagedChange.cut
  split_ifs <;> rfl

theorem cut_numBytes : (s.cut maxSize).numBytes = min s.numBytes maxSize := by
  unfold StagedChange.cut
  split_ifs with h <;> simp <;> omega

theorem cut_large (h : s.numBytes > maxSize) : s.cut maxSize = { s with numBytes := maxSize } :=
  if_pos h

/-- The turns of the loop that the remainder still needs. -/
theorem splitFuel_remainder (hmax : 0 < maxSize) (h : s.numBytes > maxSize) (start : ℤ) :
    splitFuel (q ++ [s.remainder maxSize start]) < splitFuel (s :: q) := by
  simp only [splitFuel, StagedChange.remainder, List.map_append, List.map_cons, List.map_nil,
    List.sum_append, List.sum_cons, List.sum_nil]
  omega

/-- Within its bound the loop ends, and leaves nothing over `MAX_SIZE`. -/
theorem splitAppends_numBytes_le (hmax : 0 < maxSize) {fuel : ℕ} (hfuel : splitFuel q ≤ fuel) :
    ∀ t ∈ splitAppends maxSize fuel q, t.numBytes ≤ maxSize := by
  induction fuel generalizing q with
  | zero =>
    cases q with
    | nil => simp [splitAppends]
    | cons s q => simp [splitFuel] at hfuel
  | succ fuel ih =>
    cases q with
    | nil => simp [splitAppends]
    | cons s q =>
      rw [splitAppends]
      split_ifs with h
      · intro t ht
        rcases List.mem_cons.mp ht with rfl | ht
        · rw [cut_numBytes]
          exact min_le_right _ _
        · apply ih _ t ht
          have := splitFuel_remainder (q := q) hmax h (s.startOffset + maxSize)
          omega
      · intro t ht
        rcases List.mem_cons.mp ht with rfl | ht
        · omega
        · apply ih _ t ht
          simp only [splitFuel, List.map_cons, List.sum_cons] at hfuel ⊢
          omega

/-- What cutting and the remainder keep holds of every piece. -/
theorem splitAppends_forall {P : StagedChange → Prop}
    (hcut : ∀ s, P s → s.numBytes > maxSize → P (s.cut maxSize))
    (hrest : ∀ s, P s → s.numBytes > maxSize → P (s.remainder maxSize (s.startOffset + maxSize)))
    {fuel : ℕ} (hq : ∀ s ∈ q, P s) : ∀ t ∈ splitAppends maxSize fuel q, P t := by
  induction fuel generalizing q with
  | zero => exact hq
  | succ fuel ih =>
    cases q with
    | nil => simp [splitAppends]
    | cons s q =>
      rw [List.forall_mem_cons] at hq
      rw [splitAppends]
      split_ifs with h
      · rw [List.forall_mem_cons]
        constructor
        · exact hcut s hq.1 h
        · apply ih
          rw [List.forall_mem_append]
          exact ⟨hq.2, by simpa using hrest s hq.1 h⟩
      · rw [List.forall_mem_cons]
        exact ⟨hq.1, ih hq.2⟩

theorem splitAppends_absent {path : Path} {fuel : ℕ} (h : path ∉ q.map StagedChange.path) :
    extentsOf path (splitAppends maxSize fuel q) = [] := by
  apply extentsOf_absent
  intro hmem
  obtain ⟨t, ht, htp⟩ := List.mem_map.mp hmem
  have hne : ∀ t ∈ splitAppends maxSize fuel q, t.path ≠ path := by
    apply splitAppends_forall
    · intro s hs _
      rwa [cut_path]
    · intro s hs _
      exact hs
    · intro s hs heq
      exact h (heq ▸ List.mem_map_of_mem hs)
  exact hne t ht htp

/-- The pieces of a change lie end to end and make up the change. -/
theorem splitAppends_tiles {fuel : ℕ} (hnodup : (q.map StagedChange.path).Nodup) (hs : s ∈ q) :
    ExtentTiles s.startOffset (s.startOffset + s.numBytes)
      (extentsOf s.path (splitAppends maxSize fuel q)) := by
  induction fuel generalizing q s with
  | zero =>
    rw [splitAppends, extentsOf_of_nodup hnodup hs]
    exact tiles_single s.extent
  | succ fuel ih =>
    cases q with
    | nil => exact absurd hs List.not_mem_nil
    | cons t q =>
      have hnodup' := hnodup
      rw [List.map_cons, List.nodup_cons] at hnodup'
      rw [splitAppends]
      split_ifs with h
      · have hrest : ((q ++ [t.remainder maxSize (t.startOffset + maxSize)]).map
            StagedChange.path).Nodup := by
          rw [List.map_append, List.nodup_append_comm]
          exact hnodup
        rcases List.mem_cons.mp hs with rfl | hs
        · rw [extentsOf_cons_same cut_path, cut_large h]
          have htiles := ih hrest (s := s.remainder maxSize (s.startOffset + maxSize)) (by simp)
          have hend : s.startOffset + maxSize + (s.numBytes - maxSize)
              = s.startOffset + s.numBytes := by omega
          simp only [StagedChange.remainder, hend] at htiles
          exact .cons (StagedChange.extent { s with numBytes := maxSize }) htiles
        · have hne : (t.cut maxSize).path ≠ s.path := by
            rw [cut_path]
            exact fun heq => hnodup'.1 (heq ▸ List.mem_map_of_mem hs)
          rw [extentsOf_cons_other hne]
          exact ih hrest (List.mem_append_left _ hs)
      · rcases List.mem_cons.mp hs with rfl | hs
        · rw [extentsOf_cons_same rfl, splitAppends_absent hnodup'.1]
          exact tiles_single s.extent
        · have hne : t.path ≠ s.path := fun heq => hnodup'.1 (heq ▸ List.mem_map_of_mem hs)
          rw [extentsOf_cons_other hne]
          exact ih hnodup'.2 hs

end Split

end NpmFollower.DatabaseExporting
