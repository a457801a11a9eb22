import Mathlib

/-! # Slots with tokens

Each slot of a pool is lent through a token of its own. A slot is retired before
its replacement comes, so at any time some replacements are under way. Steps that
lose nothing keep one token for each slot and the strength of the pool; what is
lost once never comes back.
-/

namespace TokenPool

variable {α : Type*} [DecidableEq α]

@[ext] structure Desk (α : Type*) where
  slots : Finset α
  tokens : Multiset α
  underway : ℕ

namespace Desk

/-- Tokens differ, and every slot has one. -/
def Exact (d : Desk α) : Prop := d.tokens.Nodup ∧ ∀ x ∈ d.slots, x ∈ d.tokens

/-- The slots there are or will be. -/
def size (d : Desk α) : ℕ := d.slots.card + d.underway

/-- The slots that can be lent, now or when their replacement has come. -/
def strength (d : Desk α) : ℕ := (d.slots.filter (· ∈ d.tokens)).card + d.underway

theorem strength_le_size (d : Desk α) : d.strength ≤ d.size :=
  Nat.add_le_add_right (Finset.card_filter_le _ _) _

theorem strength_eq_size_iff (d : Desk α) : d.strength = d.size ↔ ∀ x ∈ d.slots, x ∈ d.tokens := by
  rw [strength, size, Nat.add_right_cancel_iff, Finset.card_filter_eq_iff]

/-- A slot with different tokens has one. -/
theorem Exact.count {d : Desk α} (h : d.Exact) {x : α} (hx : x ∈ d.slots) :
    d.tokens.count x = 1 :=
  Multiset.count_eq_one_of_mem h.1 (h.2 x hx)

end Desk

inductive Step (d d' : Desk α) : Prop where
  | quiet (slots : d'.slots = d.slots) (tokens : d'.tokens = d.tokens)
      (underway : d'.underway = d.underway)
  /-- The token of a slot that is no more is taken out. -/
  | stale {x : α} (gone : x ∉ d.slots) (slots : d'.slots = d.slots)
      (tokens : d.tokens = x ::ₘ d'.tokens) (underway : d'.underway = d.underway)
  /-- A slot is retired with its token. -/
  | retire {x : α} (slot : x ∈ d.slots) (slots : d'.slots = d.slots.erase x)
      (tokens : d.tokens = x ::ₘ d'.tokens) (underway : d'.underway = d.underway + 1)
  /-- A slot is retired and its token stays. -/
  | withdraw {x : α} (slot : x ∈ d.slots) (token : x ∈ d.tokens)
      (slots : d'.slots = d.slots.erase x) (tokens : d'.tokens = d.tokens)
      (underway : d'.underway = d.underway + 1)
  | renew {x : α} (new : x ∉ d.slots) (fresh : x ∉ d.tokens) (slots : d'.slots = insert x d.slots)
      (tokens : d'.tokens = x ::ₘ d.tokens) (underway : d.underway = d'.underway + 1)

inductive Loss (d d' : Desk α) : Prop where
  /-- No replacement comes. -/
  | slot (slots : d'.slots = d.slots) (tokens : d'.tokens = d.tokens)
      (underway : d.underway = d'.underway + 1)
  | token {x : α} (slot : x ∈ d.slots) (slots : d'.slots = d.slots)
      (tokens : d.tokens = x ::ₘ d'.tokens) (underway : d'.underway = d.underway)

variable {d d' : Desk α}

theorem Step.nodup (h : Step d d') (hd : d.tokens.Nodup) : d'.tokens.Nodup := by
  cases h with
  | quiet _ tokens => exact tokens ▸ hd
  | stale _ _ tokens => exact (Multiset.nodup_cons.mp (tokens ▸ hd)).2
  | retire _ _ tokens => exact (Multiset.nodup_cons.mp (tokens ▸ hd)).2
  | withdraw _ _ _ tokens => exact tokens ▸ hd
  | renew _ fresh _ tokens =>
    rw [tokens]
    exact Multiset.nodup_cons.mpr ⟨fresh, hd⟩

omit [DecidableEq α] in
theorem Loss.nodup (h : Loss d d') (hd : d.tokens.Nodup) : d'.tokens.Nodup := by
  cases h with
  | slot _ tokens => exact tokens ▸ hd
  | token _ _ tokens => exact (Multiset.nodup_cons.mp (tokens ▸ hd)).2

theorem Step.exact (h : Step d d') (hd : d.Exact) : d'.Exact := by
  refine ⟨h.nodup hd.1, fun y hy => ?_⟩
  cases h with
  | quiet slots tokens =>
    rw [slots] at hy
    rw [tokens]
    exact hd.2 y hy
  | @stale x gone slots tokens =>
    rw [slots] at hy
    have hne : y ≠ x := by
      rintro rfl
      exact gone hy
    have hmem := hd.2 y hy
    rw [tokens] at hmem
    exact (Multiset.mem_cons.mp hmem).resolve_left hne
  | retire slot slots tokens =>
    rw [slots] at hy
    obtain ⟨hne, hy⟩ := Finset.mem_erase.mp hy
    have hmem := hd.2 y hy
    rw [tokens] at hmem
    exact (Multiset.mem_cons.mp hmem).resolve_left hne
  | withdraw slot token slots tokens =>
    rw [slots] at hy
    rw [tokens]
    exact hd.2 y (Finset.mem_of_mem_erase hy)
  | renew new fresh slots tokens =>
    rw [slots] at hy
    rw [tokens]
    rcases Finset.mem_insert.mp hy with rfl | hy
    · exact Multiset.mem_cons_self _ _
    · exact Multiset.mem_cons_of_mem (hd.2 y hy)

omit [DecidableEq α] in
/-- A loss of no token is the loss of a slot that was yet to come. -/
theorem Loss.exact (h : Loss d d') (hd : d.Exact) (htokens : d'.tokens = d.tokens) : d'.Exact := by
  cases h with
  | slot slots =>
    rw [Desk.Exact, slots, htokens]
    exact hd
  | token _ _ tokens =>
    have hcard := congrArg Multiset.card tokens
    rw [htokens, Multiset.card_cons] at hcard
    omega

theorem Step.size (h : Step d d') : d'.size = d.size := by
  rw [Desk.size, Desk.size]
  cases h with
  | quiet slots _ underway => rw [slots, underway]
  | stale _ slots _ underway => rw [slots, underway]
  | retire slot slots _ underway =>
    have hcard := Finset.card_erase_add_one slot
    rw [slots]
    omega
  | withdraw slot _ slots _ underway =>
    have hcard := Finset.card_erase_add_one slot
    rw [slots]
    omega
  | renew new _ slots _ underway =>
    have hcard := Finset.card_insert_of_notMem new
    rw [slots]
    omega

omit [DecidableEq α] in
theorem Loss.size_le (h : Loss d d') : d'.size ≤ d.size := by
  rw [Desk.size, Desk.size]
  cases h with
  | slot slots _ underway =>
    rw [slots]
    omega
  | token _ slots _ underway => rw [slots, underway]

/-- The slots with tokens, when one slot and its token go. -/
theorem filter_erase (P : Finset α) (T : Multiset α) (x : α) :
    (P.erase x).filter (· ∈ T) = (P.filter (· ∈ x ::ₘ T)).erase x := by
  ext y
  by_cases hy : y = x <;> simp [hy]

/-- A retired slot was lent through its token, and none but its own. -/
theorem Step.strength (h : Step d d') : d'.strength = d.strength := by
  rw [Desk.strength, Desk.strength]
  cases h with
  | quiet slots tokens underway => rw [slots, tokens, underway]
  | @stale x gone slots tokens underway =>
    have hfilter : d.slots.filter (· ∈ d.tokens) = d.slots.filter (· ∈ d'.tokens) := by
      refine Finset.filter_congr fun y hy => ?_
      have hne : y ≠ x := by
        rintro rfl
        exact gone hy
      simp [tokens, hne]
    rw [slots, underway, hfilter]
  | @retire x slot slots tokens underway =>
    have hmem : x ∈ d.slots.filter (· ∈ x ::ₘ d'.tokens) := by simp [slot]
    have hcard := Finset.card_erase_add_one hmem
    rw [slots, filter_erase, tokens]
    omega
  | @withdraw x slot token slots tokens underway =>
    have hmem : x ∈ d.slots.filter (· ∈ d.tokens) := by simp [slot, token]
    have hcard := Finset.card_erase_add_one hmem
    have hfilter : (d.slots.erase x).filter (· ∈ d.tokens) =
        (d.slots.filter (· ∈ d.tokens)).erase x := by
      ext y
      by_cases hy : y = x <;> simp [hy]
    rw [slots, tokens, hfilter]
    omega
  | @renew x new fresh slots tokens underway =>
    have hfilter : (insert x d.slots).filter (· ∈ x ::ₘ d.tokens) =
        insert x (d.slots.filter (· ∈ d.tokens)) := by
      ext y
      by_cases hy : y = x <;> simp [hy]
    have hnot : x ∉ d.slots.filter (· ∈ d.tokens) := fun hmem => new (Finset.mem_filter.mp hmem).1
    have hcard := Finset.card_insert_of_notMem hnot
    rw [slots, tokens, hfilter]
    omega

theorem Loss.strength (h : Loss d d') (hd : d.tokens.Nodup) :
    d'.strength + 1 = d.strength := by
  rw [Desk.strength, Desk.strength]
  cases h with
  | slot slots tokens underway =>
    rw [slots, tokens]
    omega
  | @token x slot slots tokens underway =>
    have hx : x ∉ d'.tokens := (Multiset.nodup_cons.mp (tokens ▸ hd)).1
    have hfilter : d.slots.filter (· ∈ d'.tokens) =
        (d.slots.filter (· ∈ x ::ₘ d'.tokens)).erase x := by
      ext y
      by_cases hy : y = x <;> simp [hy, hx]
    have hmem : x ∈ d.slots.filter (· ∈ x ::ₘ d'.tokens) := by simp [slot]
    have hcard := Finset.card_erase_add_one hmem
    rw [slots, underway, hfilter, tokens]
    omega

end TokenPool
