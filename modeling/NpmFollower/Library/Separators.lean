import Mathlib

/-! # Texts joined with a separator

Texts are joined with a separator between them, and a text is split at each of its
separators. The two are inverse to each other where the separator is in none of the
joined texts, and a list of no texts is never split off.
-/

namespace Separators

variable {α : Type*} [DecidableEq α] {sep : α} {l w : List α} {ls : List (List α)}

theorem mem_intercalate {c : α} (h : c ∈ [sep].intercalate ls) : c = sep ∨ ∃ l ∈ ls, c ∈ l := by
  induction ls with
  | nil => simp at h
  | cons first ls ih =>
    cases ls with
    | nil =>
      rw [List.intercalate_singleton] at h
      exact Or.inr ⟨first, List.mem_cons_self, h⟩
    | cons second ls =>
      rw [List.intercalate_cons_cons] at h
      simp only [List.mem_append, List.mem_singleton] at h
      rcases h with (hfirst | hsep) | hrest
      · exact Or.inr ⟨first, List.mem_cons_self, hfirst⟩
      · exact Or.inl hsep
      · rcases ih hrest with hsep | ⟨l, hl, hc⟩
        · exact Or.inl hsep
        · exact Or.inr ⟨l, List.mem_cons_of_mem _ hl, hc⟩

theorem infix_intercalate_of_mem (h : l ∈ ls) : l <:+: [sep].intercalate ls := by
  induction ls with
  | nil => cases h
  | cons first ls ih =>
    cases ls with
    | nil =>
      rw [List.mem_singleton.mp h, List.intercalate_singleton]
    | cons second ls =>
      rw [List.intercalate_cons_cons]
      rcases List.mem_cons.mp h with rfl | hrest
      · exact ((List.prefix_append _ _).trans (List.prefix_append _ _)).isInfix
      · exact (ih hrest).trans (List.suffix_append _ _).isInfix

/-- No piece of a split has the separator in it. -/
theorem not_mem_of_mem_splitOn (h : w ∈ l.splitOn sep) : sep ∉ w := by
  induction l generalizing w with
  | nil =>
    rw [List.splitOn_nil, List.mem_singleton] at h
    simp [h]
  | cons c l ih =>
    rw [List.splitOn_cons_eq_if_modifyHead] at h
    split_ifs at h with hc
    · rcases List.mem_cons.mp h with rfl | hrest
      · simp
      · exact ih hrest
    · obtain ⟨first, rest, hsplit⟩ := List.exists_cons_of_ne_nil (List.splitOn_ne_nil sep l)
      rw [hsplit] at h ih
      rcases List.mem_cons.mp h with rfl | hrest
      · have hfirst : sep ∉ first := ih List.mem_cons_self
        have hne : sep ≠ c := fun heq => hc (by simp [heq])
        simp [hne, hfirst]
      · exact ih (List.mem_cons_of_mem _ hrest)

/-- Splitting recovers the joined texts, if there are any and none has the separator in it. -/
theorem splitOn_intercalate_iff :
    ([sep].intercalate ls).splitOn sep = ls ↔ ls ≠ [] ∧ ∀ l ∈ ls, sep ∉ l := by
  constructor
  · intro h
    constructor
    · rintro rfl
      exact List.splitOn_ne_nil _ _ h
    · intro l hl
      rw [← h] at hl
      exact not_mem_of_mem_splitOn hl
  · rintro ⟨hne, hsep⟩
    exact List.splitOn_intercalate sep hsep hne

omit [DecidableEq α] in
/-- An occurrence does not reach over a separator that it does not contain. -/
theorem infix_append_cons {a b : List α} (hw : w ≠ []) (hsep : sep ∉ w)
    (h : w <:+: a ++ sep :: b) : w <:+: a ∨ w <:+: b := by
  obtain ⟨s, t, h⟩ := h
  rw [List.append_assoc] at h
  rcases List.append_eq_append_iff.mp h with ⟨m, rfl, hrest⟩ | ⟨m, rfl, hrest⟩
  · left
    rcases List.append_eq_append_iff.mp hrest with ⟨k, rfl, -⟩ | ⟨k, rfl, hk⟩
    · exact ⟨s, k, by simp⟩
    · cases k with
      | nil => exact ⟨s, [], by simp⟩
      | cons c k =>
        cases hk
        exact absurd (List.mem_append_right m List.mem_cons_self) hsep
  · right
    cases m with
    | nil =>
      cases w with
      | nil => exact absurd rfl hw
      | cons c w =>
        cases hrest
        exact absurd List.mem_cons_self hsep
    | cons c m =>
      cases hrest
      exact ⟨m, t, by simp⟩

/-- A text without the separator occurs in the joined text where it occurs in one of its texts. -/
theorem infix_intercalate_iff (hw : w ≠ []) (hsep : sep ∉ w) :
    w <:+: [sep].intercalate ls ↔ ∃ l ∈ ls, w <:+: l := by
  constructor
  · intro h
    induction ls with
    | nil => exact absurd (List.eq_nil_of_infix_nil h) hw
    | cons first ls ih =>
      cases ls with
      | nil =>
        rw [List.intercalate_singleton] at h
        exact ⟨first, List.mem_cons_self, h⟩
      | cons second ls =>
        rw [List.intercalate_cons_cons, List.append_assoc, List.singleton_append] at h
        rcases infix_append_cons hw hsep h with hfirst | hrest
        · exact ⟨first, List.mem_cons_self, hfirst⟩
        · obtain ⟨l, hl, hinfix⟩ := ih hrest
          exact ⟨l, List.mem_cons_of_mem _ hl, hinfix⟩
  · rintro ⟨l, hl, hinfix⟩
    exact hinfix.trans (infix_intercalate_of_mem hl)

section Nested

variable {inner : α} {groups : List (List (List α))}

/-- Two levels with different separators. -/
theorem splitOn_splitOn_intercalate_iff (hne : sep ≠ inner) :
    (([sep].intercalate (groups.map [inner].intercalate)).splitOn sep).map (List.splitOn inner) =
        groups ↔
      groups ≠ [] ∧ ∀ group ∈ groups, group ≠ [] ∧ ∀ l ∈ group, sep ∉ l ∧ inner ∉ l := by
  constructor
  · intro h
    constructor
    · rintro rfl
      exact List.splitOn_ne_nil _ _ (List.map_eq_nil_iff.mp h)
    · intro group hgroup
      rw [← h] at hgroup
      obtain ⟨text, htext, rfl⟩ := List.mem_map.mp hgroup
      refine ⟨List.splitOn_ne_nil _ _, fun l hl => ⟨fun hsep => ?_, not_mem_of_mem_splitOn hl⟩⟩
      have hinfix : l <:+: [inner].intercalate (text.splitOn inner) := infix_intercalate_of_mem hl
      rw [List.intercalate_splitOn] at hinfix
      exact not_mem_of_mem_splitOn htext (List.IsInfix.subset hinfix hsep)
  · rintro ⟨hgroups, hall⟩
    have houter : ([sep].intercalate (groups.map [inner].intercalate)).splitOn sep =
        groups.map [inner].intercalate := by
      apply splitOn_intercalate_iff.mpr
      constructor
      · simpa using hgroups
      · intro text htext hsep
        obtain ⟨group, hgroup, rfl⟩ := List.mem_map.mp htext
        rcases mem_intercalate hsep with heq | ⟨l, hl, hmem⟩
        · exact hne heq
        · exact ((hall group hgroup).2 l hl).1 hmem
    rw [houter, List.map_map]
    calc groups.map (List.splitOn inner ∘ [inner].intercalate) = groups.map id := by
          apply List.map_congr_left
          intro group hgroup
          obtain ⟨hgroup, hkeys⟩ := hall group hgroup
          exact splitOn_intercalate_iff.mpr ⟨hgroup, fun l hl => (hkeys l hl).2⟩
      _ = groups := List.map_id groups

end Nested

end Separators
