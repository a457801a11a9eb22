import NpmFollower.Library.Rows

/-! # LRU caches

The caches come from a fork of the crate `lru`. The accessor is written against
its operations, and the proofs use what the crate documents of them: what a
cache finds was stored under that key last, an entry may be evicted at every
store, and `push` returns the entry that it evicts or replaces.
-/

namespace NpmFollower.RelationalDbBuilder

/-- The operations of `LruCache<K, V>`. -/
structure LruCache (κ ν : Type) where
  State : Type
  new : State
  peek : State → κ → Option ν
  get : State → κ → Option ν × State
  /-- The value, and the cache after a write to it. -/
  getMut : State → κ → Option (ν × (ν → State))
  put : State → κ → ν → State
  putWithCost : State → κ → ν → ℕ → State
  push : State → κ → ν → Option (κ × ν) × State
  pop : State → κ → Option ν × State
  promote : State → κ → State

namespace LruCache

variable {κ ν : Type} [DecidableEq κ]

/-- The documented behaviour, by what `peek` finds. -/
structure Lawful (C : LruCache κ ν) : Prop where
  peek_new : ∀ k, C.peek C.new k = none
  get_fst : ∀ s k, (C.get s k).1 = C.peek s k
  peek_get : ∀ s k j, C.peek (C.get s k).2 j = C.peek s j
  getMut_fst : ∀ s k, (C.getMut s k).map Prod.fst = C.peek s k
  peek_getMut : ∀ s k v write, C.getMut s k = some (v, write) → ∀ w j,
    C.peek (write w) j = if j = k then some w else C.peek s j
  peek_put : ∀ s k v j, C.peek (C.put s k v) j = none ∨
    C.peek (C.put s k v) j = if j = k then some v else C.peek s j
  peek_putWithCost : ∀ s k v cost j, C.peek (C.putWithCost s k v cost) j = none ∨
    C.peek (C.putWithCost s k v cost) j = if j = k then some v else C.peek s j
  push_fst : ∀ s k v j w, (C.push s k v).1 = some (j, w) → C.peek s j = some w
  peek_push : ∀ s k v j, C.peek (C.push s k v).2 j =
    if j = k then some v
    else if (C.push s k v).1.any (fun e => e.1 = j) then none
    else C.peek s j
  pop_fst : ∀ s k, (C.pop s k).1 = C.peek s k
  peek_pop : ∀ s k j, C.peek (C.pop s k).2 j = if j = k then none else C.peek s j
  peek_promote : ∀ s k j, C.peek (C.promote s k) j = C.peek s j

namespace Lawful

variable {C : LruCache κ ν} (hC : C.Lawful) {s : C.State} {k j : κ} {v w : ν}

include hC

theorem of_peek_put (h : C.peek (C.put s k v) j = some w) :
    j = k ∧ w = v ∨ j ≠ k ∧ C.peek s j = some w := by
  rcases hC.peek_put s k v j with hput | hput
  · rw [hput] at h
    cases h
  · rw [hput] at h
    split_ifs at h with hj
    · exact .inl ⟨hj, (Option.some.inj h).symm⟩
    · exact .inr ⟨hj, h⟩

theorem of_peek_putWithCost {cost : ℕ} (h : C.peek (C.putWithCost s k v cost) j = some w) :
    j = k ∧ w = v ∨ j ≠ k ∧ C.peek s j = some w := by
  rcases hC.peek_putWithCost s k v cost j with hput | hput
  · rw [hput] at h
    cases h
  · rw [hput] at h
    split_ifs at h with hj
    · exact .inl ⟨hj, (Option.some.inj h).symm⟩
    · exact .inr ⟨hj, h⟩

end Lawful

end LruCache

/-- The entries of a cache, the one used last first. -/
structure LruList (κ ν : Type) (capacity : ℕ+) where
  entries : List (κ × ν)
  nodup : (entries.map Prod.fst).Nodup
  bounded : entries.length ≤ capacity

namespace LruList

section Operations

variable {κ ν : Type} [DecidableEq κ] {capacity : ℕ+}

def empty : LruList κ ν capacity := ⟨[], List.nodup_nil, Nat.zero_le _⟩

def peek (s : LruList κ ν capacity) (k : κ) : Option ν :=
  (Rows.find Prod.fst s.entries k).map Prod.snd

def pop (s : LruList κ ν capacity) (k : κ) : LruList κ ν capacity where
  entries := s.entries.filter fun e => e.1 ≠ k
  nodup := s.nodup.sublist (List.filter_sublist.map _)
  bounded := (List.length_filter_le _ _).trans s.bounded

/-- The entry is in front, and what no longer fits has left. -/
def front (s : LruList κ ν capacity) (k : κ) (v : ν) : LruList κ ν capacity where
  entries := (k, v) :: (s.pop k).entries.take capacity.natPred
  nodup := by
    refine List.nodup_cons.mpr ⟨fun hmem => ?_, (s.pop k).nodup.sublist ((List.take_sublist _ _).map _)⟩
    obtain ⟨e, he, heq⟩ := List.mem_map.mp hmem
    have hne := List.of_mem_filter (List.mem_of_mem_take he)
    simp [heq] at hne
  bounded := by
    rw [List.length_cons, ← PNat.natPred_add_one capacity]
    exact Nat.succ_le_succ (List.length_take_le _ _)

/-- The entry that a push of the key replaces or evicts. -/
def replaced (s : LruList κ ν capacity) (k : κ) : Option (κ × ν) :=
  ((s.peek k).map fun v => (k, v)).or s.entries[capacity.natPred]?

def promote (s : LruList κ ν capacity) (k : κ) : LruList κ ν capacity :=
  match s.peek k with
  | some v => s.front k v
  | none => s

/-- Only the last entry of a full cache is not found any more when it is cut off. -/
theorem find_take (s : LruList κ ν capacity) (j : κ) :
    Rows.find Prod.fst (s.entries.take capacity.natPred) j =
      if s.entries[capacity.natPred]?.any (fun e => e.1 = j) then none
      else Rows.find Prod.fst s.entries j := by
  have hsplit : s.entries.take capacity.natPred ++ s.entries[capacity.natPred]?.toList = s.entries := by
    rw [← List.take_add_one, PNat.natPred_add_one, List.take_of_length_le s.bounded]
  cases hlast : s.entries[capacity.natPred]? with
  | none =>
    rw [hlast, Option.toList_none, List.append_nil] at hsplit
    rw [hsplit]
    rfl
  | some last =>
    rw [hlast, Option.toList_some] at hsplit
    have hnodup := s.nodup
    rw [← hsplit, List.map_append] at hnodup
    rw [Option.any_some]
    split_ifs with hkey
    · rw [Rows.find_eq_none_iff]
      intro e he heq
      refine List.disjoint_of_nodup_append hnodup (List.mem_map_of_mem he) ?_
      simpa [heq] using (of_decide_eq_true hkey).symm
    · have hne : last.1 ≠ j := by simpa using hkey
      conv_rhs => rw [← hsplit, Rows.find_append_singleton, if_neg hne, Option.or_none]

theorem find_filter {l : List (κ × ν)} {k j : κ} (hj : j ≠ k) :
    Rows.find Prod.fst (l.filter fun e => e.1 ≠ k) j = Rows.find Prod.fst l j := by
  rw [Rows.find, List.find?_filter, Rows.find]
  congr 1
  funext e
  by_cases he : e.1 = j
  · simp [he, hj]
  · simp [he]

theorem peek_pop (s : LruList κ ν capacity) (k j : κ) :
    (s.pop k).peek j = if j = k then none else s.peek j := by
  split_ifs with hj
  · rw [peek, Option.map_eq_none_iff, Rows.find_eq_none_iff]
    intro e he
    simpa [hj] using List.of_mem_filter he
  · exact congrArg (Option.map Prod.snd) (find_filter hj)

theorem peek_front_self (s : LruList κ ν capacity) (k : κ) (v : ν) : (s.front k v).peek k = some v := by
  simp [peek, Rows.find, front]

theorem peek_front_of_ne (s : LruList κ ν capacity) {k j : κ} (v : ν) (hj : j ≠ k) :
    (s.front k v).peek j =
      (Rows.find Prod.fst ((s.pop k).entries.take capacity.natPred) j).map Prod.snd := by
  rw [peek, front, Rows.find, List.find?_cons_of_neg (by simpa using hj.symm)]
  rfl

/-- A key that is there makes room for itself. -/
theorem peek_front_of_mem {s : LruList κ ν capacity} {k : κ} {old : ν} (hk : s.peek k = some old)
    (v : ν) (j : κ) : (s.front k v).peek j = if j = k then some v else s.peek j := by
  split_ifs with hj
  · rw [hj, peek_front_self]
  · have hlength : (s.pop k).entries.length ≤ capacity.natPred := by
      obtain ⟨e, he, -⟩ := Option.map_eq_some_iff.mp hk
      have hlt : (s.pop k).entries.length < s.entries.length :=
        List.length_filter_lt_length_iff_exists.mpr
          ⟨e, Rows.mem_of_find he, by simpa using Rows.key_of_find he⟩
      exact Nat.le_of_lt_succ (hlt.trans_le (s.bounded.trans_eq (PNat.natPred_add_one capacity).symm))
    rw [peek_front_of_ne s v hj, List.take_of_length_le hlength]
    exact (peek_pop s k j).trans (if_neg hj)

theorem peek_push (s : LruList κ ν capacity) (k : κ) (v : ν) (j : κ) : (s.front k v).peek j =
    if j = k then some v
    else if (s.replaced k).any (fun e => e.1 = j) then none
    else s.peek j := by
  cases hk : s.peek k with
  | some old =>
    rw [peek_front_of_mem hk]
    split_ifs with hj hany
    · rfl
    · exact absurd (by simpa [replaced, hk] using hany) (Ne.symm hj)
    · rfl
  | none =>
    split_ifs with hj hany
    · rw [hj, peek_front_self]
    all_goals
      have hpop : (s.pop k).entries = s.entries := by
        rw [peek, Option.map_eq_none_iff, Rows.find_eq_none_iff] at hk
        exact List.filter_eq_self.mpr fun e he => by simpa using hk e he
      rw [replaced, hk, Option.map_none, Option.none_or] at hany
      rw [peek_front_of_ne s v hj, hpop, find_take]
    · rw [if_pos hany, Option.map_none]
    · rw [if_neg hany, peek]

theorem peek_front (s : LruList κ ν capacity) (k : κ) (v : ν) (j : κ) :
    (s.front k v).peek j = none ∨ (s.front k v).peek j = if j = k then some v else s.peek j := by
  have hpush := peek_push s k v j
  split_ifs at hpush ⊢
  · exact .inr hpush
  · exact .inl hpush
  · exact .inr hpush

theorem peek_front_get {s : LruList κ ν capacity} {k : κ} {v : ν} {write : ν → LruList κ ν capacity}
    (h : (s.peek k).map (fun v => (v, s.front k)) = some (v, write)) (w : ν) (j : κ) :
    (write w).peek j = if j = k then some w else s.peek j := by
  obtain ⟨old, hold, heq⟩ := Option.map_eq_some_iff.mp h
  cases heq
  exact peek_front_of_mem hold w j

theorem replaced_eq_some {s : LruList κ ν capacity} {k j : κ} {v : ν}
    (h : s.replaced k = some (j, v)) : s.peek j = some v := by
  rw [replaced] at h
  cases hk : s.peek k with
  | some old =>
    rw [hk, Option.map_some, Option.some_or] at h
    cases h
    exact hk
  | none =>
    rw [hk, Option.map_none, Option.none_or] at h
    exact congrArg (Option.map Prod.snd) (Rows.find_of_mem s.nodup (List.mem_of_getElem? h))

theorem peek_promote (s : LruList κ ν capacity) (k j : κ) : (s.promote k).peek j = s.peek j := by
  unfold promote
  cases hk : s.peek k with
  | none => rfl
  | some v =>
    rw [peek_front_of_mem hk]
    split_ifs with hj
    · rw [hj, hk]
    · rfl

end Operations

end LruList

namespace LruCache

open LruList

variable {κ ν : Type} [DecidableEq κ]

/-- A cache that holds so many entries, whatever they cost. -/
def ofCapacity (κ ν : Type) [DecidableEq κ] (capacity : ℕ+) : LruCache κ ν where
  State := LruList κ ν capacity
  new := .empty
  peek := LruList.peek
  get s k := (s.peek k, s.promote k)
  getMut s k := (s.peek k).map fun v => (v, s.front k)
  put s k v := s.front k v
  putWithCost s k v _ := s.front k v
  push s k v := (s.replaced k, s.front k v)
  pop s k := (s.peek k, s.pop k)
  promote := LruList.promote

theorem ofCapacity_lawful (capacity : ℕ+) : (ofCapacity κ ν capacity).Lawful :=
  let C := LruList κ ν capacity
  { peek_new _ := rfl
    get_fst _ _ := rfl
    peek_get (s : C) k j := LruList.peek_promote s k j
    getMut_fst _ _ := (Option.map_map ..).trans (congrFun Option.map_id _)
    peek_getMut _ _ _ _ h w j := peek_front_get h w j
    peek_put (s : C) k v j := peek_front s k v j
    peek_putWithCost (s : C) k v _ j := peek_front s k v j
    push_fst _ _ _ _ _ h := replaced_eq_some h
    peek_push (s : C) k v j := LruList.peek_push s k v j
    pop_fst _ _ := rfl
    peek_pop (s : C) k j := LruList.peek_pop s k j
    peek_promote (s : C) k j := LruList.peek_promote s k j }

end LruCache

end NpmFollower.RelationalDbBuilder
