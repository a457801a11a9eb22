import NpmFollower.Analysis.SummaryRuns

/-! # Counts of file extensions

The counts of a page are added to those in the table, so a row stands for every
run that has passed the page. The size of the pages makes no difference.
-/

namespace NpmFollower.Analysis

open Std PostgresDb

abbrev Counts := ExtTreeMap String ℤ compare

section Counts

variable (t : Counts) (ext k : String) (n : ℤ)

theorem getD_addCount : (addCount t ext n).getD k 0 = t.getD k 0 + if ext = k then n else 0 := by
  rw [addCount, ExtTreeMap.getD_eq_getD_getElem?, FiniteMap.getElem?_insert]
  split_ifs with h
  · subst h
    rfl
  · rw [← ExtTreeMap.getD_eq_getD_getElem?, add_zero]

theorem mem_addCount : k ∈ addCount t ext n ↔ ext = k ∨ k ∈ t := by
  rw [addCount, FiniteMap.mem_insert]

theorem getD_foldl_addCount_one (exts : List String) :
    (exts.foldl (fun m ext => addCount m ext 1) t).getD k 0 = t.getD k 0 + exts.count k := by
  induction exts generalizing t with
  | nil => simp
  | cons ext exts ih =>
    rw [List.foldl_cons, ih, getD_addCount, List.count_cons]
    by_cases h : ext = k
    · simp [h]
      ring
    · simp [h]

theorem mem_foldl_addCount_one (exts : List String) :
    k ∈ exts.foldl (fun m ext => addCount m ext 1) t ↔ k ∈ exts ∨ k ∈ t := by
  induction exts generalizing t with
  | nil => simp
  | cons ext exts ih =>
    rw [List.foldl_cons, ih, mem_addCount, List.mem_cons]
    tauto

/-- The statement of a page adds the count of the page to that of each row. -/
theorem getD_foldl_addCount_toList (l : List (String × ℤ)) :
    (l.foldl (fun m e => addCount m e.1 e.2) t).getD k 0 =
      t.getD k 0 + ((l.filter (·.1 = k)).map Prod.snd).sum := by
  induction l generalizing t with
  | nil => simp
  | cons e l ih =>
    rw [List.foldl_cons, ih, getD_addCount]
    by_cases h : e.1 = k
    · simp [h, add_assoc]
    · simp [h]

theorem filter_toList_of_mem (m : Counts) : ((m.toList.filter (·.1 = k)).map Prod.snd).sum =
    m.getD k 0 := by
  have hnodup : (m.toList.map Prod.fst).Nodup := by
    rw [ExtTreeMap.map_fst_toList_eq_keys]
    exact ExtTreeMap.nodup_keys
  rw [ExtTreeMap.getD_eq_getD_getElem?]
  cases hget : m[k]? with
  | none =>
    rw [List.filter_eq_nil_iff.mpr]
    · rfl
    · rintro ⟨k', n'⟩ hmem heq
      have hk' : m[k']? = some n' := ExtTreeMap.mem_toList_iff_getElem?_eq_some.mp hmem
      simp only [decide_eq_true_eq] at heq
      rw [heq, hget] at hk'
      cases hk'
  | some n =>
    have hmem : (k, n) ∈ m.toList := ExtTreeMap.mem_toList_iff_getElem?_eq_some.mpr hget
    obtain ⟨e, he⟩ := List.length_eq_one_iff.mp (Rows.length_filter_key hnodup hmem)
    have hkn : (k, n) ∈ m.toList.filter (·.1 = k) := List.mem_filter.mpr ⟨hmem, by simp⟩
    rw [he, List.mem_singleton] at hkn
    rw [he, ← hkn]
    simp

theorem getD_foldl_addCount (m : Counts) :
    (m.foldl addCount t).getD k 0 = t.getD k 0 + m.getD k 0 := by
  rw [ExtTreeMap.foldl_eq_foldl_toList, getD_foldl_addCount_toList, filter_toList_of_mem]

end Counts

/-- No extension closes the quotes around it. -/
def Quotable (diffs : List DiffAnalysis) : Prop := ∀ ext ∈ extensions diffs, !ext.toList.contains '\''

instance (diffs : List DiffAnalysis) : Decidable (Quotable diffs) :=
  inferInstanceAs (Decidable (∀ ext ∈ extensions diffs, !ext.toList.contains '\''))

theorem extensions_append (diffs diffs' : List DiffAnalysis) :
    extensions (diffs ++ diffs') = extensions diffs ++ extensions diffs' := by
  simp [extensions]

section Pages

variable {diffs : List DiffAnalysis} {t t' : Counts}

theorem getD_extCount (h : extCount diffs t = some t') (k : String) :
    t'.getD k 0 = t.getD k 0 + (extensions diffs).count k := by
  have hcounts (k : String) : ((extensions diffs).foldl (fun m ext => addCount m ext 1) ∅).getD k 0 =
      (extensions diffs).count k := by
    rw [getD_foldl_addCount_one]
    simp
  rw [extCount] at h
  split_ifs at h with hempty
  · obtain rfl := Option.some.inj h
    rw [← hcounts, ExtTreeMap.isEmpty_iff.mp hempty]
    simp
  · obtain rfl := Option.some.inj h
    rw [getD_foldl_addCount, hcounts]

theorem isSome_extCount_iff : (extCount diffs t).isSome ↔ Quotable diffs := by
  have hmem (k : String) : k ∈ (extensions diffs).foldl (fun m ext => addCount m ext 1) ∅ ↔
      k ∈ extensions diffs := by
    rw [mem_foldl_addCount_one]
    simp
  rw [extCount, Quotable]
  split_ifs with hempty hquote
  · refine iff_of_true rfl fun ext hext => ?_
    rw [← hmem, ExtTreeMap.isEmpty_iff.mp hempty] at hext
    exact absurd hext ExtTreeMap.not_mem_empty
  · obtain ⟨ext, hext, hcontains⟩ := List.any_eq_true.mp hquote
    refine iff_of_false (by simp) fun h => ?_
    have hquotable := h ext ((hmem ext).mp (ExtTreeMap.mem_keys.mp hext))
    rw [hcontains] at hquotable
    cases hquotable
  · refine iff_of_true rfl fun ext hext => ?_
    have hkeys := ExtTreeMap.mem_keys.mpr ((hmem ext).mpr hext)
    by_contra hcontains
    exact hquote (List.any_eq_true.mpr ⟨ext, hkeys, by simpa using hcontains⟩)

end Pages

/-- Two diffs on pages of one row. -/
def twoDiffs : List DiffAnalysis :=
  [⟨1, 2, .diff (.ofList [("lib/a.js", ⟨1, 0, some 1, some 2, 0⟩), ("a.ts", ⟨0, 0, none, some 1, 0⟩)]
      compare)⟩,
    ⟨1, 3, .diff (.ofList [("b.js", ⟨0, 2, some 4, some 2, 0⟩)] compare)⟩]

end NpmFollower.Analysis
