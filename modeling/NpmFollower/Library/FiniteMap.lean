import Mathlib

/-! # Finite maps with ordered keys

Maps built key by key from a function, and the sorted union of the keys of two
maps. A map is determined by its lookups, so every result here is pointwise.
-/

namespace FiniteMap

open Std

variable {κ α β : Type} [Ord κ] [TransOrd κ] [LawfulEqOrd κ]

theorem getElem?_insert [DecidableEq κ] (m : ExtTreeMap κ α compare) (k k' : κ) (a : α) :
    (m.insert k a)[k']? = if k = k' then some a else m[k']? := by
  rw [ExtTreeMap.getElem?_insert]
  by_cases h : k = k'
  · simp [h]
  · simp [h, LawfulEqCmp.compare_eq_iff_eq]

theorem getElem?_erase [DecidableEq κ] (m : ExtTreeMap κ α compare) (k k' : κ) :
    (m.erase k)[k']? = if k = k' then none else m[k']? := by
  rw [ExtTreeMap.getElem?_erase]
  by_cases h : k = k'
  · simp [h]
  · simp [h, LawfulEqCmp.compare_eq_iff_eq]

theorem getElem?_insert_of_ne (m : ExtTreeMap κ α compare) {k k' : κ} (a : α) (h : k ≠ k') :
    (m.insert k a)[k']? = m[k']? := by
  rw [ExtTreeMap.getElem?_insert, if_neg]
  simpa [LawfulEqCmp.compare_eq_iff_eq] using h

theorem mem_insert {m : ExtTreeMap κ α compare} {k k' : κ} {a : α} :
    k' ∈ m.insert k a ↔ k = k' ∨ k' ∈ m := by
  rw [ExtTreeMap.mem_insert, LawfulEqCmp.compare_eq_iff_eq]

omit [LawfulEqOrd κ] in
theorem mem_iff_getElem? {m : ExtTreeMap κ α compare} {k : κ} : k ∈ m ↔ ∃ a, m[k]? = some a := by
  rw [ExtTreeMap.mem_iff_isSome_getElem?, Option.isSome_iff_exists]

/-- The map with the value `f k` at each listed key where `f` has one. -/
def tabulate (keys : List κ) (f : κ → Option α) : ExtTreeMap κ α compare :=
  ExtTreeMap.ofList (keys.filterMap fun k => (f k).map fun a => (k, a)) compare

omit [TransOrd κ] in
private theorem pairwise_tabulated {keys : List κ} (hk : keys.Nodup) (f : κ → Option α) :
    (keys.filterMap fun k => (f k).map fun a => (k, a)).Pairwise
      fun x y => ¬compare x.1 y.1 = .eq := by
  induction keys with
  | nil => exact List.Pairwise.nil
  | cons k keys ih =>
    obtain ⟨hnot, hk⟩ := List.nodup_cons.mp hk
    rw [List.filterMap_cons]
    cases hf : f k with
    | none => simpa [hf] using ih hk
    | some a =>
      simp only [Option.map_some]
      refine List.Pairwise.cons ?_ (ih hk)
      rintro ⟨k', a'⟩ hmem heq
      obtain ⟨j, hj, hja⟩ := List.mem_filterMap.mp hmem
      obtain ⟨b, _, hb⟩ := Option.map_eq_some_iff.mp hja
      have hkk : k = k' := LawfulEqCmp.compare_eq_iff_eq.mp heq
      cases hb
      exact hnot (hkk ▸ hj)

theorem getElem?_tabulate {keys : List κ} (hk : keys.Nodup) (f : κ → Option α) (k : κ)
    (hmem : (f k).isSome → k ∈ keys) : (tabulate keys f)[k]? = f k := by
  classical
  let _ : BEq κ := instBEqOfDecidableEq
  cases hf : f k with
  | some a =>
    refine ExtTreeMap.getElem?_ofList_of_mem (k := k) ReflCmp.compare_self
      (pairwise_tabulated hk f) ?_
    exact List.mem_filterMap.mpr ⟨k, hmem (by simp [hf]), by simp [hf]⟩
  | none =>
    refine ExtTreeMap.getElem?_ofList_of_contains_eq_false ?_
    rw [Bool.eq_false_iff]
    intro hc
    obtain ⟨⟨k', a⟩, hka, hkk⟩ := List.mem_map.mp (List.contains_iff_mem.mp hc)
    obtain ⟨j, _, hj⟩ := List.mem_filterMap.mp hka
    obtain ⟨b, hb, hjb⟩ := Option.map_eq_some_iff.mp hj
    cases hjb
    cases hkk
    rw [hf] at hb
    cases hb

/-- The keys of both maps, each once, in order. -/
def unionKeys (a : ExtTreeMap κ α compare) (b : ExtTreeMap κ β compare) : List κ :=
  (ExtTreeSet.ofList (a.keys ++ b.keys) compare).toList

theorem mem_unionKeys (a : ExtTreeMap κ α compare) (b : ExtTreeMap κ β compare) (k : κ) :
    k ∈ unionKeys a b ↔ k ∈ a ∨ k ∈ b := by
  classical
  let _ : BEq κ := instBEqOfDecidableEq
  rw [unionKeys, ExtTreeSet.mem_toList, ExtTreeSet.mem_ofList, List.contains_iff_mem,
    List.mem_append, ExtTreeMap.mem_keys, ExtTreeMap.mem_keys]

theorem nodup_unionKeys (a : ExtTreeMap κ α compare) (b : ExtTreeMap κ β compare) :
    (unionKeys a b).Nodup := by
  refine ExtTreeSet.distinct_toList.imp fun {x y} hxy heq => hxy ?_
  rw [heq]
  exact ReflCmp.compare_self

theorem ofList_toList (m : ExtTreeMap κ α compare) : ExtTreeMap.ofList m.toList compare = m := by
  classical
  let _ : BEq κ := instBEqOfDecidableEq
  apply ExtTreeMap.ext_getElem?
  intro k
  cases hm : m[k]? with
  | some a =>
    refine ExtTreeMap.getElem?_ofList_of_mem (k := k) ReflCmp.compare_self
      ExtTreeMap.distinct_keys_toList ?_
    exact ExtTreeMap.mem_toList_iff_getElem?_eq_some.mpr hm
  | none =>
    refine ExtTreeMap.getElem?_ofList_of_contains_eq_false ?_
    rw [Bool.eq_false_iff]
    intro hc
    obtain ⟨⟨k', a⟩, hka, hkk⟩ := List.mem_map.mp (List.contains_iff_mem.mp hc)
    cases hkk
    rw [ExtTreeMap.mem_toList_iff_getElem?_eq_some.mp hka] at hm
    cases hm

/-- The entries of a map that a function selects, with what it makes of them. -/
def select (m : ExtTreeMap κ α compare) (f : κ → α → Option β) : List (κ × β) :=
  m.toList.filterMap fun e => (f e.1 e.2).map fun b => (e.1, b)

theorem mem_select (m : ExtTreeMap κ α compare) (f : κ → α → Option β) (k : κ) (b : β) :
    (k, b) ∈ select m f ↔ m[k]?.bind (f k) = some b := by
  rw [select, List.mem_filterMap, Option.bind_eq_some_iff]
  constructor
  · rintro ⟨⟨k', a⟩, he, hf⟩
    obtain ⟨b', hb, heq⟩ := Option.map_eq_some_iff.mp hf
    cases heq
    exact ⟨a, ExtTreeMap.mem_toList_iff_getElem?_eq_some.mp he, hb⟩
  · rintro ⟨a, ha, hb⟩
    exact ⟨(k, a), ExtTreeMap.mem_toList_iff_getElem?_eq_some.mpr ha, by simp [hb]⟩

theorem nodup_select_keys (m : ExtTreeMap κ α compare) (f : κ → α → Option β) :
    ((select m f).map Prod.fst).Nodup := by
  have hsub : (select m f).map Prod.fst = m.toList.filterMap fun e => (f e.1 e.2).map fun _ => e.1 := by
    simp only [select, List.map_filterMap, Option.map_map]
    rfl
  rw [hsub]
  refine List.Pairwise.filterMap _ (fun e e' hne k hk k' hk' heq => hne ?_)
    ExtTreeMap.distinct_keys_toList
  obtain ⟨_, _, rfl⟩ := Option.map_eq_some_iff.mp hk
  obtain ⟨_, _, rfl⟩ := Option.map_eq_some_iff.mp hk'
  rw [heq]
  exact ReflCmp.compare_self

theorem nodup_toList (m : ExtTreeMap κ α compare) : m.toList.Nodup := by
  apply ExtTreeMap.distinct_keys_toList.imp
  intro a b hne heq
  apply hne
  rw [heq]
  exact ReflCmp.compare_self

/-- Maps that agree on the keys with a property list the same entries for them. -/
theorem toList_filter_congr {m m' : ExtTreeMap κ α compare} {p : κ → Bool}
    (h : ∀ k, p k → m[k]? = m'[k]?) :
    (m.toList.filter fun e => p e.1) = m'.toList.filter fun e => p e.1 := by
  have hanti : ∀ a b : κ × α, a ∈ m.toList.filter (fun e => p e.1) →
      b ∈ m'.toList.filter (fun e => p e.1) → compare a.1 b.1 = .lt → compare b.1 a.1 = .lt →
      a = b := by
    intro a b _ _ hab hba
    rw [show compare b.1 a.1 = (compare a.1 b.1).swap from OrientedCmp.eq_swap, hab] at hba
    cases hba
  refine List.Perm.eq_of_pairwise hanti (ExtTreeMap.ordered_keys_toList.filter _)
    (ExtTreeMap.ordered_keys_toList.filter _) ?_
  rw [List.perm_ext_iff_of_nodup ((nodup_toList m).filter _) ((nodup_toList m').filter _)]
  rintro ⟨k, a⟩
  simp only [List.mem_filter, ExtTreeMap.mem_toList_iff_getElem?_eq_some]
  constructor
  · rintro ⟨ha, hk⟩
    exact ⟨(h k hk) ▸ ha, hk⟩
  · rintro ⟨ha, hk⟩
    exact ⟨(h k hk).symm ▸ ha, hk⟩

/-- Writing entries with distinct keys one after the other writes each of them. -/
theorem getElem?_foldl_insert_of_mem {l : List (κ × α)} (hl : (l.map Prod.fst).Nodup)
    (m : ExtTreeMap κ α compare) {k : κ} {a : α} (hmem : (k, a) ∈ l) :
    (l.foldl (fun t e => t.insert e.1 e.2) m)[k]? = some a := by
  induction l using List.reverseRecOn with
  | nil => cases hmem
  | append_singleton l e ih =>
    rw [List.map_append, List.map_singleton, List.nodup_append] at hl
    rw [List.foldl_append, List.foldl_cons, List.foldl_nil]
    rcases List.mem_append.mp hmem with h | h
    · rw [getElem?_insert_of_ne]
      · exact ih hl.1 h
      · exact (hl.2.2 k (List.mem_map_of_mem h) e.1 (List.mem_singleton_self _)).symm
    · cases List.mem_singleton.mp h
      rw [ExtTreeMap.getElem?_insert_self]

theorem getElem?_foldl_insert_of_not_mem {l : List (κ × α)} (m : ExtTreeMap κ α compare) {k : κ}
    (hnot : ∀ e ∈ l, e.1 ≠ k) : (l.foldl (fun t e => t.insert e.1 e.2) m)[k]? = m[k]? := by
  induction l generalizing m with
  | nil => rfl
  | cons e l ih =>
    rw [List.foldl_cons, ih _ fun e' he' => hnot e' (List.mem_cons_of_mem _ he'),
      getElem?_insert_of_ne _ _ (hnot e List.mem_cons_self)]

/-- Of the entries of one key the last one is taken. -/
theorem getElem?_ofList [DecidableEq κ] (l : List (κ × α)) (k : κ) :
    (ExtTreeMap.ofList l compare)[k]? =
      l.reverse.findSome? fun e => if e.1 = k then some e.2 else none := by
  rw [ExtTreeMap.ofList_eq_insertMany_empty, ExtTreeMap.getElem?_insertMany_list,
    ExtTreeMap.getElem?_empty, Option.or_none, List.findSomeRev?_eq_findSome?_reverse]
  simp only [LawfulEqCmp.compare_eq_iff_eq]

theorem mem_of_getElem?_ofList {l : List (κ × α)} {k : κ} {a : α}
    (h : (ExtTreeMap.ofList l compare)[k]? = some a) : (k, a) ∈ l := by
  classical
  rw [getElem?_ofList] at h
  obtain ⟨e, he, hea⟩ := List.exists_of_findSome?_eq_some h
  split_ifs at hea with hk
  cases hea
  subst hk
  exact List.mem_reverse.mp he

theorem mem_ofList_iff {l : List (κ × α)} {k : κ} :
    k ∈ ExtTreeMap.ofList l compare ↔ ∃ a, (k, a) ∈ l := by
  classical
  constructor
  · intro h
    obtain ⟨a, ha⟩ := mem_iff_getElem?.mp h
    exact ⟨a, mem_of_getElem?_ofList ha⟩
  · rintro ⟨a, ha⟩
    rw [ExtTreeMap.mem_iff_isSome_getElem?, getElem?_ofList, List.findSome?_isSome_iff]
    exact ⟨(k, a), List.mem_reverse.mpr ha, by simp⟩

/-- Entries of one key that agree are all taken. -/
theorem getElem?_ofList_of_forall {l : List (κ × α)} {k : κ} {a : α} (hmem : (k, a) ∈ l)
    (hall : ∀ b, (k, b) ∈ l → b = a) : (ExtTreeMap.ofList l compare)[k]? = some a := by
  obtain ⟨b, hb⟩ := mem_iff_getElem?.mp (mem_ofList_iff.mpr ⟨a, hmem⟩)
  rw [hb, hall b (mem_of_getElem?_ofList hb)]

/-- The map has as many entries as the list when no key comes twice. -/
theorem size_ofList_eq_iff [DecidableEq κ] (l : List (κ × α)) :
    (ExtTreeMap.ofList l compare).size = l.length ↔ (l.map Prod.fst).Nodup := by
  have hkeys : (ExtTreeMap.ofList l compare).keys.toFinset = (l.map Prod.fst).toFinset := by
    ext k
    simp
  have hsize : (ExtTreeMap.ofList l compare).size = (l.map Prod.fst).toFinset.card := by
    rw [← hkeys, List.toFinset_card_of_nodup ExtTreeMap.nodup_keys, ExtTreeMap.length_keys]
  have hlength : (l.map Prod.fst).length = l.length := List.length_map Prod.fst
  rw [hsize, ← hlength]
  exact Multiset.toFinset_card_eq_card_iff_nodup (m := ((l.map Prod.fst : List κ) : Multiset κ))

/-- Identifiers without gaps below them are those below their number. -/
theorem mem_iff_lt_size {m : ExtTreeMap UInt32 α compare} (h : ∀ i j, j ∈ m → i ≤ j → i ∈ m)
    (i : UInt32) : i ∈ m ↔ i.toNat < m.size := by
  have hmem (n : ℕ) : n ∈ (m.keys.map UInt32.toNat).toFinset ↔ ∃ j ∈ m, j.toNat = n := by
    simp only [List.mem_toFinset, List.mem_map, ExtTreeMap.mem_keys]
  have hcard : (m.keys.map UInt32.toNat).toFinset.card = m.size := by
    rw [List.toFinset_card_of_nodup, List.length_map, ExtTreeMap.length_keys]
    exact ExtTreeMap.nodup_keys.map fun _ _ => UInt32.toNat.inj
  rw [← hcard]
  constructor
  · intro hi
    have hsub : Finset.range (i.toNat + 1) ⊆ (m.keys.map UInt32.toNat).toFinset := by
      intro n hn
      have hle : n ≤ i.toNat := Nat.lt_succ_iff.mp (Finset.mem_range.mp hn)
      have hn32 : (UInt32.ofNat n).toNat = n :=
        UInt32.toNat_ofNat_of_lt (hle.trans_lt i.toNat_lt)
      exact (hmem n).mpr ⟨.ofNat n, h _ i hi (UInt32.le_iff_toNat_le.mpr (hn32.trans_le hle)), hn32⟩
    simpa using Finset.card_le_card hsub
  · intro hi
    by_contra hnot
    have hsub : (m.keys.map UInt32.toNat).toFinset ⊆ Finset.range i.toNat := by
      intro n hn
      obtain ⟨j, hj, rfl⟩ := (hmem n).mp hn
      refine Finset.mem_range.mpr (lt_of_not_ge fun hle => hnot ?_)
      exact h i j hj (UInt32.le_iff_toNat_le.mpr hle)
    have hcount := Finset.card_le_card hsub
    rw [Finset.card_range] at hcount
    exact absurd hi (by omega)

end FiniteMap
