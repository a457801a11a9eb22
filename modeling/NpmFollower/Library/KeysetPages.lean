import Mathlib

/-! # Reading rows by pages behind a key

A process reads the rows behind the last key it has seen, in the order of their
keys and at most so many at a time, and works on a page before it reads the next.
It may be stopped after any page. What it has worked on is a first part of the
rows that were there when it began.
-/

namespace KeysetPages

variable {σ ρ κ : Type} [LinearOrder κ] (key : ρ → κ)

/-- The rows behind a key, in the order of their keys. -/
def behind (last : Option κ) (l : List ρ) : List ρ :=
  (l.filter fun r => last.all (· < key r)).insertionSort fun r r' => key r ≤ key r'

def page (n : ℕ) (last : Option κ) (l : List ρ) : List ρ := (behind key last l).take n

/-- Works on at most so many pages, and tells whether an empty one was reached. -/
def visit (rows : σ → List ρ) (n : ℕ) (write : List ρ → σ → Option σ) :
    ℕ → Option κ → σ → σ × Bool
  | 0, _, s => (s, false)
  | pages + 1, last, s =>
    let p := page key n last (rows s)
    match p.getLast? with
    | none => (s, true)
    | some r =>
      match write p s with
      | none => (s, false)
      | some s' => visit rows n write pages (some (key r)) s'

variable {key} {l : List ρ} {last : Option κ} {n : ℕ} {r : ρ}

theorem mem_behind : r ∈ behind key last l ↔ r ∈ l ∧ ∀ k ∈ last, k < key r := by
  simp [behind, List.mem_insertionSort, Option.all_eq_true]

theorem behind_none_perm : (behind key none l).Perm l := by
  simpa [behind] using List.perm_insertionSort (fun r r' => key r ≤ key r') l

section Distinct

variable (hl : (l.map key).Nodup)

include hl

theorem pairwise_behind : (behind key last l).Pairwise fun r r' => key r < key r' := by
  have hle : (behind key last l).Pairwise fun r r' => key r ≤ key r' :=
    List.pairwise_insertionSort _ _
  have hnodup : ((behind key last l).map key).Nodup := by
    rw [behind, ((List.perm_insertionSort _ _).map key).nodup_iff]
    exact (List.filter_sublist.map key).nodup hl
  have hne : (behind key last l).Pairwise fun r r' => key r ≠ key r' := List.pairwise_map.mp hnodup
  exact (hle.and hne).imp fun h => lt_of_le_of_ne h.1 h.2

theorem nodup_behind : ((behind key last l).map key).Nodup :=
  (List.pairwise_map.mpr (pairwise_behind hl)).imp ne_of_lt

theorem nodup_page : ((page key n last l).map key).Nodup :=
  (((List.take_sublist _ _).map key)).nodup (nodup_behind hl)

/-- Behind a page is what the page leaves. -/
theorem behind_page (hlast : (page key n last l).getLast? = some r) :
    behind key (some (key r)) l = (behind key last l).drop n := by
  have hsorted : (behind key last l).Pairwise fun r r' => key r < key r' := pairwise_behind hl
  have hsplit := List.take_append_drop n (behind key last l)
  obtain ⟨init, hinit⟩ := List.getLast?_eq_some_iff.mp hlast
  rw [page] at hinit
  rw [← hsplit, hinit, List.pairwise_append] at hsorted
  obtain ⟨hpage, hrest, hcross⟩ := hsorted
  have : Std.Irrefl fun a b : ρ => key a < key b := ⟨fun a => lt_irrefl _⟩
  refine (pairwise_behind hl).eq_of_mem_iff hrest fun x => ?_
  constructor
  · intro hx
    obtain ⟨hmem, hlt⟩ := mem_behind.mp hx
    have hrx : key r < key x := hlt _ rfl
    have hr : r ∈ behind key last l := List.mem_of_mem_take (List.mem_of_getLast? hlast)
    have hbehind : x ∈ behind key last l :=
      mem_behind.mpr ⟨hmem, fun k hk => ((mem_behind.mp hr).2 k hk).trans hrx⟩
    rw [← hsplit, hinit, List.mem_append, List.mem_append, List.mem_singleton] at hbehind
    rcases hbehind with (hx | rfl) | hx
    · have hxr := (List.pairwise_append.mp hpage).2.2 x hx r List.mem_cons_self
      exact absurd (hxr.trans hrx) (lt_irrefl _)
    · exact absurd hrx (lt_irrefl _)
    · exact hx
  · intro hx
    refine mem_behind.mpr ⟨(mem_behind.mp (List.mem_of_mem_drop hx)).1, ?_⟩
    rintro k ⟨⟩
    exact hcross r (by simp) x hx

/-- The last row of a page has the greatest key on it. -/
theorem le_of_mem_page (hlast : (page key n last l).getLast? = some r) {x : ρ}
    (hx : x ∈ page key n last l) : key x ≤ key r := by
  obtain ⟨init, hinit⟩ := List.getLast?_eq_some_iff.mp hlast
  have hsorted : (page key n last l).Pairwise fun r r' => key r < key r' :=
    (pairwise_behind hl).sublist (List.take_sublist _ _)
  rw [hinit, List.pairwise_append] at hsorted
  rw [hinit, List.mem_append, List.mem_singleton] at hx
  rcases hx with hx | rfl
  · exact (hsorted.2.2 x hx r List.mem_cons_self).le
  · exact le_rfl

end Distinct

theorem page_eq_nil_iff (hn : 1 ≤ n) : page key n last l = [] ↔ behind key last l = [] := by
  rw [page, List.take_eq_nil_iff]
  exact or_iff_right (Nat.ne_of_gt hn)

section Visits

variable {rows : σ → List ρ} {write : List ρ → σ → Option σ}
  {I : List ρ → σ → Prop} (hrows : ∀ s, ((rows s).map key).Nodup) (hn : 1 ≤ n)
  (hkeep : ∀ done p s s' r, I done s → write p s = some s' → (∀ x ∈ p, key x ≤ key r) →
    behind key (some (key r)) (rows s') = behind key (some (key r)) (rows s))

include hrows hn hkeep

/-- What each page keeps, a visit keeps, also one that stops on the way. -/
theorem visit_rule
    (hstep : ∀ done p s s', I done s → (∀ r ∈ p, r ∈ rows s) → (p.map key).Nodup →
      write p s = some s' → I (done ++ p) s') (pages : ℕ) (last : Option κ) (done : List ρ) (s : σ) (h : I done s) :
    ∃ visited, visited <+: behind key last (rows s) ∧
      I (done ++ visited) (visit key rows n write pages last s).1 ∧
      ((visit key rows n write pages last s).2 = true → visited = behind key last (rows s)) := by
  induction pages generalizing last done s with
  | zero => exact ⟨[], List.nil_prefix, by simpa [visit] using h, by simp [visit]⟩
  | succ pages ih =>
    rw [visit]
    cases hlast : (page key n last (rows s)).getLast? with
    | none =>
      have hnil := (page_eq_nil_iff hn).mp (List.getLast?_eq_none_iff.mp hlast)
      exact ⟨[], List.nil_prefix, by simpa using h, fun _ => hnil.symm⟩
    | some r =>
      dsimp only
      cases hwrite : write (page key n last (rows s)) s with
      | none => exact ⟨[], List.nil_prefix, by simpa using h, by simp⟩
      | some s' =>
        have hmem : ∀ x ∈ page key n last (rows s), x ∈ rows s :=
          fun x hx => (mem_behind.mp (List.mem_of_mem_take hx)).1
        have hnext : behind key (some (key r)) (rows s') = (behind key last (rows s)).drop n := by
          rw [hkeep _ _ _ _ r h hwrite fun x => le_of_mem_page (hrows s) hlast]
          exact behind_page (hrows s) hlast
        obtain ⟨visited, hprefix, hI, hfinished⟩ :=
          ih (some (key r)) _ s' (hstep done _ s s' h hmem (nodup_page (hrows s)) hwrite)
        rw [hnext] at hprefix hfinished
        refine ⟨page key n last (rows s) ++ visited, ?_, by rwa [← List.append_assoc], ?_⟩
        · rw [← List.take_append_drop n (behind key last (rows s)), page]
          exact (List.prefix_append_right_inj _).mpr hprefix
        · intro hend
          rw [hfinished hend, page, List.take_append_drop]

/-- A visit with as many pages as there are rows, and one more, reaches the end. -/
theorem visit_finished
    (hstep : ∀ done p s, I done s → (∀ r ∈ p, r ∈ rows s) → (p.map key).Nodup →
      ∃ s', write p s = some s' ∧ I (done ++ p) s') (pages : ℕ) (last : Option κ) (done : List ρ)
    (s : σ) (h : I done s) (hpages : (behind key last (rows s)).length < pages) :
    (visit key rows n write pages last s).2 = true := by
  induction pages generalizing last done s with
  | zero => exact absurd hpages (Nat.not_lt_zero _)
  | succ pages ih =>
    rw [visit]
    cases hlast : (page key n last (rows s)).getLast? with
    | none => rfl
    | some r =>
      have hmem : ∀ x ∈ page key n last (rows s), x ∈ rows s :=
        fun x hx => (mem_behind.mp (List.mem_of_mem_take hx)).1
      obtain ⟨s', hwrite, hI⟩ := hstep done _ s h hmem (nodup_page (hrows s))
      rw [hwrite]
      dsimp only
      refine ih _ _ s' hI ?_
      rw [hkeep _ _ _ _ r h hwrite fun x => le_of_mem_page (hrows s) hlast,
        behind_page (hrows s) hlast, List.length_drop]
      have hpos : (behind key last (rows s)).length ≠ 0 := by
        intro hzero
        have hnil := (page_eq_nil_iff hn).mpr (List.length_eq_zero_iff.mp hzero)
        simp [hnil] at hlast
      omega

end Visits

end KeysetPages
