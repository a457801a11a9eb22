import Mathlib

/-! # Reading a log by pages of keys

The rows of a log are sorted by a key that several rows may share. A page has all
rows of the first so many keys, and the next page begins behind the last key of
the one before it. The pages are a partition of the log at every choice of sizes.
-/

namespace Paging

variable {ρ κ : Type*} [LinearOrder κ] (key : ρ → κ)

/-- The keys of the rows, each once and in their order. -/
def keys (l : List ρ) : List κ := (l.map key).dedup.insertionSort (· ≤ ·)

def page (l : List ρ) (n : ℕ) : List ρ := l.filter fun r => key r ∈ (keys key l).take n

def rest (l : List ρ) (k : κ) : List ρ := l.filter fun r => k < key r

/-- Pages are read until one is empty; the size of a page may depend on those before it. -/
def readPages (size : List (List ρ) → ℕ) :
    ℕ → List (List ρ) → List ρ → Option (List (List ρ))
  | 0, _, _ => none
  | fuel + 1, done, l =>
    let p := page key l (size done)
    match p.getLast? with
    | none => some []
    | some last => (readPages size fuel (done ++ [p]) (rest key l (key last))).map (p :: ·)

/-- No row comes before one with a smaller key. -/
def Sorted (l : List ρ) : Prop := l.Pairwise fun r r' => key r ≤ key r'

/-- No key has rows in both pages, and those of the first come first. -/
def Before (p q : List ρ) : Prop := ∀ r ∈ p, ∀ r' ∈ q, key r < key r'

variable {key} {l : List ρ}

@[simp] theorem mem_keys {k : κ} : k ∈ keys key l ↔ ∃ r ∈ l, key r = k := by
  simp [keys]

theorem nodup_keys : (keys key l).Nodup :=
  (List.perm_insertionSort _ _).nodup_iff.mpr (List.nodup_dedup _)

theorem pairwise_keys : (keys key l).Pairwise (· < ·) := by
  have hle : (keys key l).Pairwise (· ≤ ·) := List.pairwise_insertionSort (· ≤ ·) _
  exact (hle.and nodup_keys).imp fun h => lt_of_le_of_ne h.1 h.2

theorem length_keys_le : (keys key l).length ≤ l.length := by
  rw [keys, List.length_insertionSort, ← List.length_map key]
  exact (List.dedup_sublist _).length_le

theorem keys_congr {l' : List ρ} (h : l.Perm l') : keys key l = keys key l' := by
  refine pairwise_keys.eq_of_mem_iff pairwise_keys fun k => ?_
  simp only [mem_keys, h.mem_iff]

/-- The first keys are closed downwards. -/
theorem mem_take_of_le {n : ℕ} {k k' : κ} (hk : k ∈ keys key l) (hk' : k' ∈ (keys key l).take n)
    (hle : k ≤ k') : k ∈ (keys key l).take n := by
  have hsplit := List.take_append_drop n (keys key l)
  have hsorted : (keys key l).Pairwise (· < ·) := pairwise_keys
  rw [← hsplit, List.pairwise_append] at hsorted
  rw [← hsplit, List.mem_append] at hk
  rcases hk with hk | hk
  · exact hk
  · exact absurd (hsorted.2.2 k' hk' k hk) hle.not_gt

theorem Sorted.filter (hl : Sorted key l) (p : ρ → Bool) : Sorted key (l.filter p) :=
  List.Pairwise.filter p hl

theorem Sorted.le_getLast (hl : Sorted key l) {last : ρ} (h : l.getLast? = some last) :
    ∀ r ∈ l, key r ≤ key last := by
  obtain ⟨front, rfl⟩ := List.getLast?_eq_some_iff.mp h
  intro r hr
  rcases List.mem_append.mp hr with hr | hr
  · exact (List.pairwise_append.mp hl).2.2 r hr last (List.mem_singleton_self last)
  · rw [List.mem_singleton.mp hr]

theorem Sorted.filter_append (hl : Sorted key l) (k : κ) :
    (l.filter fun r => key r ≤ k) ++ rest key l k = l := by
  induction l with
  | nil => rfl
  | cons r l ih =>
    obtain ⟨hr, hl⟩ := List.pairwise_cons.mp hl
    by_cases hk : key r ≤ k
    · have hrest : rest key (r :: l) k = rest key l k := by
        simp [rest, hk]
      rw [hrest, List.filter_cons_of_pos (by simpa using hk), List.cons_append, ih hl]
    · have hall : ∀ r' ∈ r :: l, k < key r' := by
        intro r' hr'
        rcases List.mem_cons.mp hr' with rfl | hr'
        · exact not_le.mp hk
        · exact (not_le.mp hk).trans_le (hr r' hr')
      have hnone : ((r :: l).filter fun r => key r ≤ k) = [] := by
        rw [List.filter_eq_nil_iff]
        intro r' hr'
        simpa using hall r' hr'
      rw [hnone, List.nil_append, rest, List.filter_eq_self]
      intro r' hr'
      simpa using hall r' hr'

theorem page_eq_nil_iff {n : ℕ} (hn : 1 ≤ n) : page key l n = [] ↔ l = [] := by
  constructor
  · intro h
    cases hkeys : keys key l with
    | nil =>
      rw [List.eq_nil_iff_forall_not_mem]
      intro r hr
      have hmem : key r ∈ keys key l := mem_keys.mpr ⟨r, hr, rfl⟩
      rw [hkeys] at hmem
      exact List.not_mem_nil hmem
    | cons k ks =>
      have hmem : k ∈ keys key l := by
        rw [hkeys]
        exact List.mem_cons_self
      obtain ⟨r, hr, rfl⟩ := mem_keys.mp hmem
      have hpage : r ∈ page key l n := by
        obtain ⟨m, rfl⟩ := Nat.exists_eq_add_of_le' hn
        rw [page, hkeys, List.take_succ_cons]
        exact List.mem_filter.mpr ⟨hr, by simp⟩
      rw [h] at hpage
      exact absurd hpage List.not_mem_nil
  · rintro rfl
    rfl

section Cut

variable {n : ℕ} {last : ρ} (hl : Sorted key l) (hlast : (page key l n).getLast? = some last)

include hl hlast

theorem page_eq_filter : page key l n = l.filter fun r => key r ≤ key last := by
  have hmem := List.mem_of_getLast? hlast
  rw [page, List.mem_filter, decide_eq_true_iff] at hmem
  refine List.filter_congr fun r hr => ?_
  rw [decide_eq_decide]
  constructor
  · intro hkey
    have hpage : r ∈ page key l n := List.mem_filter.mpr ⟨hr, decide_eq_true hkey⟩
    exact (hl.filter _).le_getLast hlast r hpage
  · intro hle
    exact mem_take_of_le (mem_keys.mpr ⟨r, hr, rfl⟩) hmem.2 hle

theorem page_append_rest : page key l n ++ rest key l (key last) = l := by
  rw [page_eq_filter hl hlast, hl.filter_append]

theorem before_rest : Before key (page key l n) (rest key l (key last)) := by
  intro r hr r' hr'
  have hle := (hl.filter _).le_getLast hlast r hr
  have hlt := (List.mem_filter.mp hr').2
  exact hle.trans_lt (by simpa using hlt)

omit hl in
theorem length_keys_rest : (keys key (rest key l (key last))).length < (keys key l).length := by
  have hmem : last ∈ l := (List.mem_filter.mp (List.mem_of_getLast? hlast)).1
  have hnodup : (key last :: keys key (rest key l (key last))).Nodup := by
    refine List.nodup_cons.mpr ⟨fun hkey => ?_, nodup_keys⟩
    obtain ⟨r, hr, heq⟩ := mem_keys.mp hkey
    have hlt : key last < key r := by simpa using (List.mem_filter.mp hr).2
    exact hlt.ne' heq
  have hsub : key last :: keys key (rest key l (key last)) ⊆ keys key l := by
    intro k hk
    rcases List.mem_cons.mp hk with rfl | hk
    · exact mem_keys.mpr ⟨last, hmem, rfl⟩
    · obtain ⟨r, hr, rfl⟩ := mem_keys.mp hk
      exact mem_keys.mpr ⟨r, (List.mem_filter.mp hr).1, rfl⟩
  exact (List.subperm_of_subset hnodup hsub).length_le

end Cut

/-- With enough fuel the loop ends, and its pages are the log, cut between keys. -/
theorem readPages_ok {size : List (List ρ) → ℕ} (hsize : ∀ done, 1 ≤ size done) {fuel : ℕ}
    (hl : Sorted key l) (hfuel : (keys key l).length < fuel) (done : List (List ρ)) :
    ∃ pages, readPages key size fuel done l = some pages ∧ pages.flatten = l ∧
      (∀ p ∈ pages, p ≠ []) ∧ pages.Pairwise (Before key) := by
  induction fuel generalizing l done with
  | zero => omega
  | succ fuel ih =>
    rw [readPages]
    cases hlast : (page key l (size done)).getLast? with
    | none =>
      have hnil := (page_eq_nil_iff (hsize done)).mp (List.getLast?_eq_none_iff.mp hlast)
      exact ⟨[], rfl, hnil.symm, nofun, .nil⟩
    | some last =>
      have hfewer := length_keys_rest hlast
      have hrest : Sorted key (rest key l (key last)) := hl.filter _
      obtain ⟨pages, hpages, hflatten, hne, hbefore⟩ :=
        ih hrest (by omega) (done ++ [page key l (size done)])
      refine ⟨page key l (size done) :: pages, ?_, ?_, ?_, ?_⟩
      · simp only [hpages, Option.map_some]
      · rw [List.flatten_cons, hflatten, page_append_rest hl hlast]
      · intro p hp
        rcases List.mem_cons.mp hp with rfl | hp
        · intro hnil
          rw [hnil] at hlast
          cases hlast
        · exact hne p hp
      · refine List.pairwise_cons.mpr ⟨fun q hq r hr r' hr' => ?_, hbefore⟩
        have hmem : r' ∈ rest key l (key last) := by
          rw [← hflatten]
          exact List.mem_flatten.mpr ⟨q, hq, hr'⟩
        exact before_rest hl hlast r hr r' hmem

end Paging
