import NpmFollower.DownloadMetrics.MakeMetric
import NpmFollower.Library.Gregorian
import NpmFollower.Library.Tiling

/-! # The ranges of days that are requested

A range is split at the dates of the yearly rule. The parts follow one another
without a gap or an overlap, but the first one goes to the same date of the next
year and so has more days than the API gives for one request.
-/

namespace NpmFollower.DownloadMetrics

open Tiling

/-- Years of chronoutil, for dates that are counted from the beginning of the common era; the
year before it has 366 days. -/
def addYears (d n : ℕ) : ℕ := Gregorian.addYears (d + 365) n - 365

theorem addYears_zero (d : ℕ) : addYears d 0 = d := by
  have hzero := Gregorian.addYears_zero (d + 365)
  unfold addYears
  omega

theorem addYears_succ (d n : ℕ) :
    addYears d n + 365 ≤ addYears d (n + 1) ∧ addYears d (n + 1) ≤ addYears d n + 366 := by
  have hyear := Gregorian.addYears_succ (d + 365) n
  have hfirst := (Gregorian.addYears_strictMono (d + 365)).monotone (Nat.zero_le n)
  have hzero := Gregorian.addYears_zero (d + 365)
  unfold addYears
  omega

/-- The dates of the rule of `query_abstraction`. -/
def dateRule (lbound k : ℕ) : ℕ := addYears (addYears lbound 1) k

def requestedRanges (lbound rbound : ℕ) : List (ℕ × ℕ) :=
  queryRanges (dateRule lbound) rbound (rbound + 1 - lbound) 0 lbound

/-- They are the ranges of `query_abstraction`. -/
theorem queryAbstraction_eq_flatMap {cal : Calendar} (hcal : cal.addYears = addYears)
    (answer : ℕ → ℕ → List ApiResultDownload) (lbound rbound : ℕ) :
    queryAbstraction cal answer lbound rbound =
      (requestedRanges lbound rbound).flatMap fun range => answer range.1 range.2 := by
  rw [queryAbstraction, hcal]
  rfl

/-! ## They tile the interval -/

def rangeStart (range : ℕ × ℕ) : ℤ := range.1

/-- The days of a range, both ends included. -/
def rangeDays (range : ℕ × ℕ) : ℤ := range.2 + 1 - range.1

theorem tiles_queryRanges {rule : ℕ → ℕ} (hrule : StrictMono rule) {rbound fuel k relLbound : ℕ}
    (hfuel : rbound + 1 ≤ relLbound + fuel) (hend : relLbound ≤ rbound + 1)
    (hk : relLbound ≤ rule k) :
    Tiles rangeStart rangeDays relLbound (rbound + 1) (queryRanges rule rbound fuel k relLbound) ∧
      ∀ range ∈ queryRanges rule rbound fuel k relLbound, 0 < rangeDays range := by
  induction fuel generalizing k relLbound with
  | zero =>
    have heq : relLbound = rbound + 1 := by omega
    subst heq
    rw [queryRanges]
    exact ⟨Tiles.nil _, by simp⟩
  | succ fuel ih =>
    rw [queryRanges]
    split_ifs with hbound
    · have heq : relLbound = rbound + 1 := by omega
      subst heq
      exact ⟨Tiles.nil _, by simp⟩
    · have hnext : rule k < rule (k + 1) := hrule (Nat.lt_succ_self k)
      have hrest := ih (k := k + 1) (show rbound + 1 ≤ min (rule k) rbound + 1 + fuel by omega)
        (by omega) (by omega)
      have hstart : rangeStart (relLbound, min (rule k) rbound) +
          rangeDays (relLbound, min (rule k) rbound) = ((min (rule k) rbound + 1 : ℕ) : ℤ) := by
        simp only [rangeStart, rangeDays]
        omega
      constructor
      · apply @Tiles.cons _ rangeStart rangeDays (relLbound, min (rule k) rbound)
        rw [hstart]
        exact hrest.1
      · intro range hrange
        rcases List.mem_cons.mp hrange with rfl | hmem
        · simp only [rangeDays]
          omega
        · exact hrest.2 range hmem

/-- In order, pairwise disjoint, contiguous, and with the days of the interval. -/
structure TileInterval (lbound rbound : ℕ) (ranges : List (ℕ × ℕ)) : Prop where
  forward : ∀ range ∈ ranges, range.1 ≤ range.2
  disjoint : ranges.Pairwise fun range next => range.2 < next.1
  contiguous : ranges.IsChain fun range next => next.1 = range.2 + 1
  covers : ∀ d, (∃ range ∈ ranges, range.1 ≤ d ∧ d ≤ range.2) ↔ lbound ≤ d ∧ d ≤ rbound

theorem tileInterval_of_tiles {lbound rbound : ℕ} {ranges : List (ℕ × ℕ)}
    (h : Tiles rangeStart rangeDays lbound (rbound + 1) ranges)
    (hpos : ∀ range ∈ ranges, 0 < rangeDays range) : TileInterval lbound rbound ranges where
  forward range hrange := by
    have hdays := hpos range hrange
    rw [rangeDays] at hdays
    omega
  disjoint := (h.pairwise hpos).imp fun {range next} hle => by
    simp only [rangeStart, rangeDays] at hle
    omega
  contiguous := h.isChain.imp fun {range next} heq => by
    simp only [rangeStart, rangeDays] at heq
    omega
  covers d := by
    have hcover := h.exists_mem_iff hpos d
    constructor
    · rintro ⟨range, hrange, hlow, hhigh⟩
      have hbounds := hcover.mp ⟨range, hrange, by simp only [rangeStart, rangeDays]; omega⟩
      omega
    · intro hd
      obtain ⟨range, hrange, hlow, hhigh⟩ := hcover.mpr (by omega)
      simp only [rangeStart, rangeDays] at hlow hhigh
      exact ⟨range, hrange, by omega, by omega⟩

theorem dateRule_strictMono (lbound : ℕ) : StrictMono (dateRule lbound) := by
  apply strictMono_nat_of_lt_succ
  intro k
  have hyear := (addYears_succ (addYears lbound 1) k).1
  rw [dateRule, dateRule]
  omega

/-- The first date of the rule. -/
theorem dateRule_zero (lbound : ℕ) :
    lbound + 365 ≤ dateRule lbound 0 ∧ dateRule lbound 0 ≤ lbound + 366 := by
  have hyear := addYears_succ lbound 0
  rw [addYears_zero] at hyear
  rwa [dateRule, addYears_zero]

theorem tileInterval_requestedRanges {lbound rbound : ℕ} (h : lbound ≤ rbound) :
    TileInterval lbound rbound (requestedRanges lbound rbound) := by
  have hfirst := dateRule_zero lbound
  have htiles := tiles_queryRanges (dateRule_strictMono lbound)
    (show rbound + 1 ≤ lbound + (rbound + 1 - lbound) by omega) (by omega)
    (show lbound ≤ dateRule lbound 0 by omega)
  exact tileInterval_of_tiles htiles.1 htiles.2

/-! ## The limit of the API -/

/-- No range has more than 365 days. -/
def WithinLimit (ranges : List (ℕ × ℕ)) : Prop := ∀ range ∈ ranges, rangeDays range ≤ 365

theorem requestedRanges_eq_cons {lbound rbound : ℕ} (h : lbound ≤ rbound) :
    requestedRanges lbound rbound = (lbound, min (dateRule lbound 0) rbound) ::
      queryRanges (dateRule lbound) rbound (rbound - lbound) 1
        (min (dateRule lbound 0) rbound + 1) := by
  have hfuel : rbound + 1 - lbound = rbound - lbound + 1 := by omega
  rw [requestedRanges, hfuel, queryRanges, if_neg (by omega)]

/-- The requests are right if and only if one request of at most 365 days is enough. -/
theorem requestedRanges_within_iff (lbound rbound : ℕ) (h : lbound ≤ rbound) :
    (TileInterval lbound rbound (requestedRanges lbound rbound) ∧
      WithinLimit (requestedRanges lbound rbound)) ↔ rbound < lbound + 365 := by
  have hfirst := dateRule_zero lbound
  have htile := tileInterval_requestedRanges h
  rw [requestedRanges_eq_cons h] at htile ⊢
  constructor
  · rintro ⟨-, hlimit⟩
    by_contra hlong
    have hdays := hlimit _ List.mem_cons_self
    simp only [rangeDays] at hdays
    omega
  · intro hshort
    refine ⟨htile, fun range hrange => ?_⟩
    -- the whole interval is not longer
    have hforward := htile.forward range hrange
    have hlow := (htile.covers range.1).mp ⟨range, hrange, le_rfl, hforward⟩
    have hhigh := (htile.covers range.2).mp ⟨range, hrange, hforward, le_rfl⟩
    rw [rangeDays]
    omega

/-- From the 10th of January 2015, on a hundred days. -/
theorem requestedRanges_within_hundredDays :
    TileInterval 735608 735707 (requestedRanges 735608 735707) ∧
      WithinLimit (requestedRanges 735608 735707) :=
  (requestedRanges_within_iff 735608 735707 (by omega)).mpr (by omega)

/-- Two years from the 10th of January 2015: the first request is up to the same day of 2016. -/
theorem not_requestedRanges_within_twoYears :
    ¬ ∀ lbound rbound : ℕ, lbound ≤ rbound →
      TileInterval lbound rbound (requestedRanges lbound rbound) ∧
        WithinLimit (requestedRanges lbound rbound) := by
  intro h
  have hranges : (735608, 735973) ∈ requestedRanges 735608 736338 := by
    decide +kernel
  have hdays := (h 735608 736338 (by omega)).2 _ hranges
  simp [rangeDays] at hdays

end NpmFollower.DownloadMetrics
