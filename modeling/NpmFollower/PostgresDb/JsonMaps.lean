import NpmFollower.PostgresDb.Json

/-! # Objects by their keys

Removing a key moves the last entry of an object. Where the keys are distinct
this changes the order of the entries and no lookup of another key.
-/

namespace NpmFollower.PostgresDb.JsonMap

theorem get_cons (e : String × Value) (m : JsonMap) (key : String) :
    get (e :: m) key = if key = e.1 then some e.2 else get m key := by
  obtain ⟨k, v⟩ := e
  by_cases h : key = k
  · simp [get, h]
  · have hbeq : (key == k) = false := by simpa using h
    simp [get, List.lookup, hbeq, h]

theorem get_eq_some_iff {m : JsonMap} (hm : (m.map Prod.fst).Nodup) {key : String} {v : Value} :
    m.get key = some v ↔ (key, v) ∈ m := by
  induction m with
  | nil => simp [get]
  | cons e m ih =>
    obtain ⟨k, w⟩ := e
    rw [List.map_cons, List.nodup_cons] at hm
    rw [get_cons, List.mem_cons]
    by_cases h : key = k
    · subst h
      have hnot : (key, v) ∉ m := fun hmem => hm.1 (List.mem_map.mpr ⟨_, hmem, rfl⟩)
      simp [hnot, eq_comm]
    · simp [h, ih hm.2]

/-- The order of the entries does not influence a lookup. -/
theorem get_perm {m m' : JsonMap} (h : m.Perm m') (hm : (m.map Prod.fst).Nodup) (key : String) :
    m.get key = m'.get key := by
  have hm' : (m'.map Prod.fst).Nodup := (h.map Prod.fst).nodup hm
  apply Option.ext
  intro v
  rw [get_eq_some_iff hm, get_eq_some_iff hm', h.mem_iff]

theorem remove_fst (m : JsonMap) (key : String) : (m.remove key).1 = m.get key := by
  unfold remove
  cases hfind : m.findIdx? (fun e => e.1 == key) with
  | none =>
    rw [List.findIdx?_eq_none_iff] at hfind
    refine (List.lookup_eq_none_iff.mpr fun e he => ?_).symm
    rw [bne, Bool.beq_comm, hfind e he]
    rfl
  | some i =>
    cases hlast : m.getLast? with
    | none => simp [List.getLast?_eq_none_iff.mp hlast, get]
    | some last => rfl

/-- `swap_remove` drops the entry with the key and may change the order of the others. -/
theorem remove_snd_perm (m : JsonMap) (key : String) :
    (m.remove key).2.Perm (m.eraseP fun e => e.1 == key) := by
  unfold remove
  cases hfind : m.findIdx? (fun e => e.1 == key) with
  | none =>
    rw [List.findIdx?_eq_none_iff] at hfind
    rw [List.eraseP_of_forall_not]
    simpa using hfind
  | some i =>
    have hi : i < m.length := (List.findIdx?_eq_some_iff_findIdx_eq.mp hfind).1
    have herase : m.eraseP (fun e => e.1 == key) = m.eraseIdx i := by
      rw [List.eraseP_eq_eraseIdx, hfind]
    rcases List.eq_nil_or_concat m with rfl | ⟨init, last, rfl⟩
    · simp at hi
    · rw [List.concat_eq_append] at *
      rw [herase]
      simp only [List.getLast?_append, List.getLast?_singleton, Option.some_or]
      rcases Nat.lt_or_ge i init.length with hlt | hge
      · rw [List.set_append_left _ _ hlt, List.dropLast_concat, List.eraseIdx_append_of_lt_length hlt]
        exact (List.set_perm_cons_eraseIdx hlt last).trans (List.perm_append_singleton _ _).symm
      · have heq : i = init.length := by
          simp at hi
          omega
        subst heq
        simp [List.eraseIdx_append_of_length_le]

theorem nodup_remove {m : JsonMap} (hm : (m.map Prod.fst).Nodup) (key : String) :
    (((m.remove key).2).map Prod.fst).Nodup := by
  have hsub : (m.eraseP fun e => e.1 == key).Sublist m := List.eraseP_sublist
  exact ((remove_snd_perm m key).map Prod.fst).nodup_iff.mpr ((hsub.map Prod.fst).nodup hm)

theorem get_remove_of_ne {m : JsonMap} (hm : (m.map Prod.fst).Nodup) {key key' : String}
    (h : key' ≠ key) : (m.remove key).2.get key' = m.get key' := by
  rw [get_perm (remove_snd_perm m key) (nodup_remove hm key)]
  apply Option.ext
  intro v
  have hsub : (m.eraseP fun e => e.1 == key).Sublist m := List.eraseP_sublist
  rw [get_eq_some_iff ((hsub.map Prod.fst).nodup hm), get_eq_some_iff hm]
  exact List.mem_eraseP_of_neg (by simpa using h)

theorem get_remove_self {m : JsonMap} (hm : (m.map Prod.fst).Nodup) (key : String) :
    (m.remove key).2.get key = none := by
  rw [get_perm (remove_snd_perm m key) (nodup_remove hm key)]
  apply List.lookup_eq_none_iff.mpr
  intro e he
  induction m with
  | nil => cases he
  | cons e' m ih =>
    rw [List.map_cons, List.nodup_cons] at hm
    rw [List.eraseP_cons, Bool.cond_eq_ite] at he
    split_ifs at he with heq
    · have hkey : e'.1 = key := beq_iff_eq.mp heq
      rw [bne_iff_ne]
      rintro rfl
      exact hm.1 (hkey ▸ List.mem_map_of_mem he)
    · rcases List.mem_cons.mp he with rfl | he
      · rw [bne_iff_ne]
        rintro rfl
        exact heq (beq_self_eq_true _)
      · exact ih hm.2 he

theorem containsKey_iff {m : JsonMap} {key : String} :
    m.containsKey key = true ↔ ∃ v, m.get key = some v := by
  rw [containsKey, Option.isSome_iff_exists]

theorem get_append (m m' : JsonMap) (key : String) :
    get (m ++ m') key = (m.get key).or (m'.get key) := by
  rw [get, List.lookup_append]
  rfl

theorem get_insert (m : JsonMap) (key key' : String) (v : Value) :
    (m.insert key v).get key' = if key' = key then some v else m.get key' := by
  rw [insert]
  split_ifs with hcontains hkey hkey
  · subst hkey
    obtain ⟨w, hw⟩ := containsKey_iff.mp hcontains
    clear hcontains
    induction m with
    | nil => cases hw
    | cons e m ih =>
      rw [get_cons] at hw
      rw [List.map_cons, get_cons]
      by_cases he : e.1 = key'
      · simp [he]
      · rw [if_neg (Ne.symm he)] at hw
        rw [if_neg he, if_neg (Ne.symm he), ih hw]
  · clear hcontains
    induction m with
    | nil => rfl
    | cons e m ih =>
      rw [List.map_cons, get_cons, get_cons, ih]
      by_cases he : e.1 = key
      · have hne : key' ≠ e.1 := fun h => hkey (h.trans he)
        rw [if_pos he, if_neg hkey, if_neg hne]
      · rw [if_neg he]
  · subst hkey
    have hnone : m.get key' = none := by
      rw [containsKey, Option.isSome_iff_exists, not_exists] at hcontains
      exact Option.eq_none_iff_forall_not_mem.mpr hcontains
    rw [get_append, hnone, get_cons]
    simp
  · rw [get_append, get_cons, if_neg hkey]
    cases m.get key' <;> rfl

theorem nodup_insert {m : JsonMap} (hm : (m.map Prod.fst).Nodup) (key : String) (v : Value) :
    ((m.insert key v).map Prod.fst).Nodup := by
  rw [insert]
  split_ifs with hcontains
  · have hkeys : (m.map fun e => if e.1 = key then (key, v) else e).map Prod.fst =
        m.map Prod.fst := by
      rw [List.map_map]
      apply List.map_congr_left
      intro e _
      by_cases he : e.1 = key
      · simp [he]
      · simp [he]
    rwa [hkeys]
  · have hnot : key ∉ m.map Prod.fst := by
      intro hmem
      obtain ⟨e, he, rfl⟩ := List.mem_map.mp hmem
      exact hcontains (containsKey_iff.mpr ⟨e.2, (get_eq_some_iff hm).mpr he⟩)
    rw [List.map_append, List.map_singleton]
    exact List.nodup_append.mpr ⟨hm, List.nodup_singleton key, by
      intro a ha b hb
      rw [List.mem_singleton.mp hb]
      rintro rfl
      exact hnot ha⟩

theorem containsKey_iff_mem {m : JsonMap} {key : String} :
    m.containsKey key = true ↔ key ∈ m.map Prod.fst := by
  induction m with
  | nil => simp [containsKey, get]
  | cons e m ih =>
    rw [containsKey, get_cons, List.map_cons, List.mem_cons, ← ih, containsKey]
    by_cases h : key = e.1 <;> simp [h]

theorem mem_of_get {m : JsonMap} {key : String} {v : Value} (h : m.get key = some v) :
    (key, v) ∈ m := by
  induction m with
  | nil => cases h
  | cons e m ih =>
    rw [get_cons] at h
    split_ifs at h with hkey
    · cases h
      rw [hkey]
      exact List.mem_cons_self
    · exact List.mem_cons_of_mem _ (ih h)

theorem get_map_snd (m : JsonMap) (f : Value → Value) (key : String) :
    get (m.map fun e => (e.1, f e.2)) key = (m.get key).map f := by
  induction m with
  | nil => rfl
  | cons e m ih =>
    rw [List.map_cons, get_cons, get_cons, ih]
    split_ifs <;> rfl

theorem get_filter_fst (m : JsonMap) {keep : String → Bool} {key : String} (h : keep key = true) :
    get (m.filter fun e => keep e.1) key = m.get key := by
  induction m with
  | nil => rfl
  | cons e m ih =>
    rw [List.filter_cons, get_cons]
    by_cases he : key = e.1
    · rw [← he, if_pos h, get_cons, if_pos he, if_pos rfl]
    · rw [if_neg he]
      split_ifs
      · rw [get_cons, if_neg he, ih]
      · exact ih

theorem insert_of_not_mem {m : JsonMap} {key : String} (h : key ∉ m.map Prod.fst) (v : Value) :
    m.insert key v = m ++ [(key, v)] := by
  rw [insert, if_neg (containsKey_iff_mem.not.mpr h)]

/-- Entries with distinct keys are collected as they stand. -/
theorem foldl_insert {m l : JsonMap} (h : ((m ++ l).map Prod.fst).Nodup) :
    l.foldl (fun m e => m.insert e.1 e.2) m = m ++ l := by
  induction l generalizing m with
  | nil => rw [List.append_nil, List.foldl_nil]
  | cons e l ih =>
    have hnot : e.1 ∉ m.map Prod.fst := by
      rw [List.map_append, List.nodup_append] at h
      intro hmem
      exact h.2.2 _ hmem _ (List.mem_cons_self) rfl
    rw [List.foldl_cons, insert_of_not_mem hnot, ih (by simpa using h), List.append_assoc]
    rfl

theorem foldl_insert_nil {l : JsonMap} (h : (l.map Prod.fst).Nodup) :
    l.foldl (fun m e => JsonMap.insert m e.1 e.2) [] = l := by
  rw [foldl_insert (by rwa [List.nil_append]), List.nil_append]

/-- A key that has to be there is removed, read and decoded. -/
theorem removeKeyUnwrapType_bind {α β : Type*} (decode : Value → Option α) (m : JsonMap)
    (key : String) (f : Option α × JsonMap → Option β) (hf : ∀ rest, f (none, rest) = none) :
    (m.removeKeyUnwrapType decode key).bind f =
      (m.get key).bind fun v => (decode v).bind fun a => f (some a, (m.remove key).2) := by
  rw [removeKeyUnwrapType, ← remove_fst]
  rcases m.remove key with ⟨_ | v, rest⟩
  · exact hf m
  · cases hv : decode v <;> simp [hv]

end NpmFollower.PostgresDb.JsonMap
