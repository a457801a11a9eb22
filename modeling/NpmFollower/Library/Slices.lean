import Mathlib

/-! # Pieces joined in a row

The place where each piece of a concatenation starts, the search among these
places, and what a window of the concatenation inside one piece holds.
-/

namespace Slices

variable {α : Type}

/-- Where each piece starts, and last where the whole ends. -/
def cumulative (lens : List ℤ) : List ℤ := lens.scanl (· + ·) 0

def start (lens : List ℤ) (i : ℕ) : ℤ := (lens.take i).sum

/-- How many entries of an ordered list are at most `x`. -/
def bisectRight (xs : List ℤ) (x : ℤ) : ℕ := (xs.takeWhile (· ≤ x)).length

variable {lens : List ℤ}

@[simp] theorem length_cumulative : (cumulative lens).length = lens.length + 1 := by
  simp [cumulative]

@[simp] theorem start_zero : start lens 0 = 0 := by simp [start]

theorem start_length : start lens lens.length = lens.sum := by simp [start]

theorem start_succ {i : ℕ} (hi : i < lens.length) : start lens (i + 1) = start lens i + lens[i] :=
  List.sum_take_succ lens i hi

theorem cumulative_getD {i : ℕ} (hi : i ≤ lens.length) :
    (cumulative lens).getD i 0 = start lens i := by
  have hlt : i < (cumulative lens).length := by
    rw [length_cumulative]
    omega
  rw [List.getD_eq_getElem _ _ hlt]
  simp only [cumulative, List.getElem_scanl]
  rw [start, List.sum_eq_foldl]

theorem start_mono (hnonneg : ∀ n ∈ lens, 0 ≤ n) {i j : ℕ} (hij : i ≤ j) (hj : j ≤ lens.length) :
    start lens i ≤ start lens j := by
  induction j, hij using Nat.le_induction with
  | base => exact le_rfl
  | succ j _ ih =>
    have hlt : j < lens.length := hj
    have hstep := start_succ hlt
    have hlen := hnonneg _ (List.getElem_mem hlt)
    have := ih hlt.le
    omega

/-- The piece that a place lies in; places past the end count to the last piece. -/
def Within (lens : List ℤ) (i : ℕ) (p : ℤ) : Prop :=
  start lens i ≤ p ∧ (i + 1 < lens.length → p < start lens (i + 1))

theorem Within.lt_next {i : ℕ} {p : ℤ} (h : Within lens i p) (hi : i < lens.length)
    (hp : p < lens.sum) : p < start lens (i + 1) := by
  by_cases hlast : i + 1 < lens.length
  · exact h.2 hlast
  · have heq : i + 1 = lens.length := by omega
    rwa [heq, start_length]

theorem Within.unique (hnonneg : ∀ n ∈ lens, 0 ≤ n) {i j : ℕ} {p : ℤ} (h : Within lens i p)
    (h' : Within lens j p) (hi : i < lens.length) (hj : j < lens.length) : i = j := by
  rcases lt_trichotomy i j with hij | hij | hij
  · have hlt := h.2 (by omega)
    have := start_mono hnonneg (show i + 1 ≤ j from hij) hj.le
    have := h'.1
    omega
  · exact hij
  · have hlt := h'.2 (by omega)
    have := start_mono hnonneg (show j + 1 ≤ i from hij) hi.le
    have := h.1
    omega

/-- A place at the end of one piece is where the piece that it lies in starts, if it is another. -/
theorem Within.start_eq (hnonneg : ∀ n ∈ lens, 0 ≤ n) {i j : ℕ} {p : ℤ} (h : Within lens j p)
    (hi : i < lens.length) (hj : j < lens.length) (hne : j ≠ i) (hfrom : start lens i ≤ p)
    (hto : p ≤ start lens (i + 1)) : start lens j = p := by
  have hij : i < j := by
    by_contra hle
    have hji : j < i := by omega
    have := h.2 (by omega)
    have := start_mono hnonneg (show j + 1 ≤ i from hji) hi.le
    omega
  have := start_mono hnonneg (show i + 1 ≤ j from hij) hj.le
  have := h.1
  omega

section Bisect

variable {xs : List ℤ} {x : ℤ} {i : ℕ}

theorem bisectRight_le_length : bisectRight xs x ≤ xs.length :=
  (List.takeWhile_prefix _).length_le

theorem bisectRight_cons_le {y : ℤ} {ys : List ℤ} (hy : y ≤ x) :
    bisectRight (y :: ys) x = bisectRight ys x + 1 := by
  simp [bisectRight, hy]

theorem bisectRight_cons_gt {y : ℤ} {ys : List ℤ} (hy : ¬ y ≤ x) :
    bisectRight (y :: ys) x = 0 := by
  simp [bisectRight, hy]

theorem le_of_lt_bisectRight (hi : i < bisectRight xs x) : xs.getD i 0 ≤ x := by
  induction xs generalizing i with
  | nil => exact absurd hi (Nat.not_lt_zero _)
  | cons y ys ih =>
    by_cases hy : y ≤ x
    · rw [bisectRight_cons_le hy] at hi
      cases i with
      | zero => exact hy
      | succ i => exact ih (Nat.lt_of_succ_lt_succ hi)
    · rw [bisectRight_cons_gt hy] at hi
      exact absurd hi (Nat.not_lt_zero _)

theorem lt_at_bisectRight (hi : bisectRight xs x < xs.length) : x < xs.getD (bisectRight xs x) 0 := by
  induction xs with
  | nil => exact absurd hi (Nat.not_lt_zero _)
  | cons y ys ih =>
    by_cases hy : y ≤ x
    · rw [bisectRight_cons_le hy] at hi ⊢
      exact ih (Nat.lt_of_succ_lt_succ hi)
    · rw [bisectRight_cons_gt hy]
      simpa using hy

end Bisect

/-- The search finds a piece for every place from the first on. -/
theorem bisectRight_pos {p : ℤ} (hp : 0 ≤ p) : 0 < bisectRight (cumulative lens) p := by
  cases lens <;> simp [cumulative, bisectRight, hp]

theorem within_of_bisectRight {p : ℤ} {i : ℕ} (hi : i + 1 = bisectRight (cumulative lens) p)
    (hlen : i < lens.length) : Within lens i p := by
  constructor
  · rw [← cumulative_getD hlen.le]
    apply le_of_lt_bisectRight
    omega
  · intro hnext
    rw [← cumulative_getD (show i + 1 ≤ lens.length from hlen), hi]
    apply lt_at_bisectRight
    rw [← hi, length_cumulative]
    omega

/-- When the search runs past every place, the whole ends before. -/
theorem sum_le_of_bisectRight {p : ℤ} (h : bisectRight (cumulative lens) p = lens.length + 1) :
    lens.sum ≤ p := by
  rw [← start_length, ← cumulative_getD le_rfl]
  apply le_of_lt_bisectRight
  omega

section Windows

variable {pieces : List (List α)}

theorem flatten_split {i : ℕ} (hi : i < pieces.length) :
    pieces.flatten = (pieces.take i).flatten ++ (pieces[i] ++ (pieces.drop (i + 1)).flatten) := by
  conv_lhs => rw [← List.take_append_drop i pieces, List.drop_eq_getElem_cons hi]
  rw [List.flatten_append, List.flatten_cons]

theorem length_flatten_take (pieces : List (List α)) (i : ℕ) :
    (((pieces.take i).flatten.length : ℕ) : ℤ) = start (pieces.map fun s => (s.length : ℤ)) i := by
  rw [start, List.length_flatten, ← List.map_take]
  induction pieces.take i with
  | nil => rfl
  | cons s ss ih => simp [ih]

/-- A window that lies in one piece. -/
theorem take_drop_flatten {i p k : ℕ} (hi : i < pieces.length)
    (hfrom : start (pieces.map fun s => (s.length : ℤ)) i ≤ p)
    (hto : (p + k : ℤ) ≤ start (pieces.map fun s => (s.length : ℤ)) (i + 1)) :
    (pieces.flatten.drop p).take k =
      (pieces[i].drop (p - (pieces.take i).flatten.length)).take k := by
  have hstart := length_flatten_take pieces i
  have hi' : i < (pieces.map fun s => (s.length : ℤ)).length := by simpa using hi
  have hnext := start_succ hi'
  rw [List.getElem_map] at hnext
  rw [flatten_split hi, List.drop_append, List.drop_eq_nil_of_le (by omega), List.nil_append,
    List.drop_append_of_le_length (by omega), List.take_append_of_le_length]
  rw [List.length_drop]
  omega

end Windows

end Slices
