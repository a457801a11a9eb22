import Mathlib

/-! # Pieces that lie end to end

Pieces of one object, each with the place where it starts and its length. Tiles
of an interval follow one another without a gap or an overlap.
-/

namespace Tiling

variable {ε : Type} {start len : ε → ℤ}

/-- The pieces begin at the first place, end at the second, and meet in between. -/
inductive Tiles (start len : ε → ℤ) : ℤ → ℤ → List ε → Prop where
  | nil (a : ℤ) : Tiles start len a a []
  | cons (e : ε) {b : ℤ} {es : List ε} (rest : Tiles start len (start e + len e) b es) :
      Tiles start len (start e) b (e :: es)

theorem tiles_single (e : ε) : Tiles start len (start e) (start e + len e) [e] := .cons e (.nil _)

theorem Tiles.of_nil {a b : ℤ} (h : Tiles start len a b []) : a = b := by
  cases h
  rfl

theorem Tiles.start_eq {a b : ℤ} {e : ε} {es : List ε} (h : Tiles start len a b (e :: es)) :
    start e = a := by
  cases h
  rfl

theorem Tiles.rest {a b : ℤ} {e : ε} {es : List ε} (h : Tiles start len a b (e :: es)) :
    Tiles start len (a + len e) b es := by
  cases h with
  | cons _ rest => exact rest

theorem Tiles.append {a b c : ℤ} {es fs : List ε} (h : Tiles start len a b es)
    (h' : Tiles start len b c fs) : Tiles start len a c (es ++ fs) := by
  induction h with
  | nil => exact h'
  | cons e _ ih => exact .cons e (ih h')

/-- The last tile ends where the interval does. -/
theorem Tiles.last {a b : ℤ} {es : List ε} {e : ε} (h : Tiles start len a b (es ++ [e])) :
    start e + len e = b := by
  induction es generalizing a with
  | nil =>
    have hb := h.rest.of_nil
    have ha := h.start_eq
    omega
  | cons d es ih => exact ih h.rest

/-- Tiles of positive length make the interval at least as long as each of them. -/
theorem Tiles.lt {a b : ℤ} {es : List ε} (h : Tiles start len a b es) (hne : es ≠ [])
    (hpos : ∀ e ∈ es, 0 < len e) : a < b := by
  induction h with
  | nil => exact absurd rfl hne
  | @cons e b es rest ih =>
    have he := hpos e List.mem_cons_self
    by_cases hes : es = []
    · subst hes
      have := rest.of_nil
      omega
    · have := ih hes fun d hd => hpos d (List.mem_cons_of_mem _ hd)
      omega

/-- Reading the same pieces with other functions that agree on them. -/
theorem Tiles.map {δ : Type} {start' len' : δ → ℤ} {f : ε → δ} {a b : ℤ} {es : List ε}
    (h : Tiles start len a b es) (hstart : ∀ e, start' (f e) = start e)
    (hlen : ∀ e, len' (f e) = len e) : Tiles start' len' a b (es.map f) := by
  induction h with
  | nil => exact .nil _
  | cons e _ ih =>
    rw [← hstart e, List.map_cons]
    apply Tiles.cons
    rwa [hstart, hlen]

/-- Tiles of positive length lie inside of the interval. -/
theorem Tiles.mem_bounds {a b : ℤ} {es : List ε} (h : Tiles start len a b es)
    (hpos : ∀ e ∈ es, 0 < len e) {e : ε} (he : e ∈ es) : a ≤ start e ∧ start e + len e ≤ b := by
  induction h with
  | nil => simp at he
  | @cons d b es rest ih =>
    have hd := hpos d List.mem_cons_self
    rcases List.mem_cons.mp he with rfl | hmem
    · by_cases hes : es = []
      · subst hes
        exact ⟨le_rfl, rest.of_nil.le⟩
      · exact ⟨le_rfl, (rest.lt hes fun d hd => hpos d (List.mem_cons_of_mem _ hd)).le⟩
    · have hbounds := ih (fun d hd => hpos d (List.mem_cons_of_mem _ hd)) hmem
      omega

theorem Tiles.pairwise {a b : ℤ} {es : List ε} (h : Tiles start len a b es)
    (hpos : ∀ e ∈ es, 0 < len e) : es.Pairwise fun e f => start e + len e ≤ start f := by
  induction h with
  | nil => exact List.Pairwise.nil
  | cons e rest ih =>
    have hrest := fun d hd => hpos d (List.mem_cons_of_mem e hd)
    rw [List.pairwise_cons]
    exact ⟨fun f hf => (rest.mem_bounds hrest hf).1, ih hrest⟩

theorem Tiles.isChain {a b : ℤ} {es : List ε} (h : Tiles start len a b es) :
    es.IsChain fun e f => start f = start e + len e := by
  induction h with
  | nil => exact List.IsChain.nil
  | @cons e b es rest ih =>
    cases es with
    | nil => exact List.isChain_singleton e
    | cons f es => exact List.isChain_cons_cons.mpr ⟨rest.start_eq, ih⟩

/-- Tiles of positive length cover the interval and nothing else. -/
theorem Tiles.exists_mem_iff {a b : ℤ} {es : List ε} (h : Tiles start len a b es)
    (hpos : ∀ e ∈ es, 0 < len e) (x : ℤ) :
    (∃ e ∈ es, start e ≤ x ∧ x < start e + len e) ↔ a ≤ x ∧ x < b := by
  constructor
  · rintro ⟨e, he, hlow, hhigh⟩
    have hbounds := h.mem_bounds hpos he
    omega
  · induction h with
    | nil => omega
    | @cons e b es rest ih =>
      intro hx
      by_cases hfirst : x < start e + len e
      · exact ⟨e, List.mem_cons_self, hx.1, hfirst⟩
      · obtain ⟨f, hf, hin⟩ := ih (fun d hd => hpos d (List.mem_cons_of_mem _ hd))
          ⟨by omega, hx.2⟩
        exact ⟨f, List.mem_cons_of_mem _ hf, hin⟩

end Tiling
