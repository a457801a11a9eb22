import Mathlib

/-! # Weekly download counts

A range of days is queried from the npm API year by year. The daily counts are
folded into weeks that begin at the first day of the range; a week with a null
or without downloads is not stored.
-/

namespace NpmFollower.DownloadMetrics

/-- What is used of chrono and chronoutil. A date is the number of days from the beginning of the
common era. -/
structure Calendar where
  /-- The day as the API writes it. -/
  dayText : ℕ → String
  /-- `NaiveDate::parse_from_str(.., "%Y-%m-%d")`. -/
  parseFromStr : String → Option ℕ
  /-- The date plus a number of years. -/
  addYears : ℕ → ℕ → ℕ

structure ApiResultDownload where
  day : String
  downloads : Option ℤ
deriving DecidableEq

structure DownloadCount where
  date : ℕ
  count : Option ℤ
deriving DecidableEq

structure DownloadMetric where
  packageId : ℤ
  downloadCounts : List DownloadCount
  latestDate : ℕ
deriving DecidableEq

/-- The sum of two `i64`, which wraps around. -/
def addI64 (a b : ℤ) : ℤ := (a + b).bmod (2 ^ 64)

/-- The ranges that are queried: up to the next date of the yearly rule, but not past `rbound`. -/
def queryRanges (rule : ℕ → ℕ) (rbound : ℕ) : ℕ → ℕ → ℕ → List (ℕ × ℕ)
  | 0, _, _ => []
  | fuel + 1, k, relLbound =>
    if relLbound > rbound then []
    else (relLbound, min (rule k) rbound) ::
      queryRanges rule rbound fuel (k + 1) (min (rule k) rbound + 1)

/-- `query_abstraction` for one package, with the answers of the API to its ranges. -/
def queryAbstraction (cal : Calendar) (answer : ℕ → ℕ → List ApiResultDownload)
    (lbound rbound : ℕ) : List ApiResultDownload :=
  -- the rule advances with every query, so it is not asked for more dates than there are days
  (queryRanges (cal.addYears (cal.addYears lbound 1)) rbound (rbound + 1 - lbound) 0 lbound).flatMap
    fun range => answer range.1 range.2

/-- The count of a week, which is null if one of its days is. -/
def weeklyCount (first : ApiResultDownload) (rest : List ApiResultDownload) : Option ℤ :=
  rest.foldl (fun wc c => wc.bind fun wc => c.downloads.map fun cc => addI64 wc cc) first.downloads

def isStored (weeklyCount : Option ℤ) : Bool := weeklyCount.any fun x => 0 < x

/-- The loop of `make_download_metric`; `none` is a panic. -/
def weekLoop (cal : Calendar) (weeklyResults : List DownloadCount) :
    List ApiResultDownload → Option (List DownloadCount × ℕ)
  | [] => none
  | first :: rest => do
    let count := weeklyCount first (rest.take 6)
    let date ← cal.parseFromStr first.day
    let weeklyResults :=
      if isStored count then weeklyResults ++ [⟨date, count⟩] else weeklyResults
    if (rest.drop 6).isEmpty then return (weeklyResults, date)
    else weekLoop cal weeklyResults (rest.drop 6)
termination_by downloads => downloads.length
decreasing_by simp

def makeDownloadMetric (cal : Calendar) (packageId : ℤ) (downloads : List ApiResultDownload) :
    Option DownloadMetric :=
  (weekLoop cal [] downloads).map fun r => ⟨packageId, r.1, r.2⟩

section Days

variable (cal : Calendar) (series : ℕ → Option ℤ)

/-- The entries of `n` days. -/
def days (first n : ℕ) : List ApiResultDownload :=
  (List.range' first n).map fun d => ⟨cal.dayText d, series d⟩

/-- What the API answers for a range. -/
def daysIn (first last : ℕ) : List ApiResultDownload := days cal series first (last + 1 - first)

@[simp] theorem length_days (first n : ℕ) : (days cal series first n).length = n := by
  simp [days]

theorem days_add (first m n : ℕ) :
    days cal series first (m + n) = days cal series first m ++ days cal series (first + m) n := by
  rw [days, ← List.range'_append_1, List.map_append, days, days]

theorem days_succ (first n : ℕ) : days cal series first (n + 1) =
    ⟨cal.dayText first, series first⟩ :: days cal series (first + 1) n := by
  rw [days, List.range'_succ, List.map_cons, days]

theorem take_days (first n k : ℕ) :
    (days cal series first n).take k = days cal series first (min k n) := by
  rw [days, ← List.map_take, days]
  rcases le_total k n with hk | hk
  · rw [List.take_range'_of_length_ge hk, min_eq_left hk]
  · rw [List.take_range'_of_length_le hk, min_eq_right hk]

theorem drop_days (first n k : ℕ) :
    (days cal series first n).drop k = days cal series (first + k) (n - k) := by
  rw [days, ← List.map_drop, List.drop_range', days, mul_one]

/-- The queried ranges cover the days up to the bound, each once. -/
theorem flatMap_queryRanges {rule : ℕ → ℕ} (hrule : StrictMono rule) (rbound : ℕ)
    {fuel k relLbound : ℕ} (hfuel : rbound + 1 ≤ relLbound + fuel)
    (hk : relLbound ≤ rule k) :
    (queryRanges rule rbound fuel k relLbound).flatMap (fun range => daysIn cal series range.1 range.2) =
      daysIn cal series relLbound rbound := by
  induction fuel generalizing k relLbound with
  | zero =>
    have hzero : rbound + 1 - relLbound = 0 := by omega
    rw [daysIn, hzero]
    rfl
  | succ fuel ih =>
    rw [queryRanges]
    split_ifs with hbound
    · have hzero : rbound + 1 - relLbound = 0 := by omega
      rw [daysIn, hzero]
      rfl
    · have hnext : rule k < rule (k + 1) := hrule (Nat.lt_succ_self k)
      have hmin : relLbound ≤ min (rule k) rbound := by omega
      rw [List.flatMap_cons, ih (by omega) (by omega), daysIn, daysIn, daysIn]
      have hsplit : rbound + 1 - relLbound =
          (min (rule k) rbound + 1 - relLbound) + (rbound + 1 - (min (rule k) rbound + 1)) := by omega
      have hstart : relLbound + (min (rule k) rbound + 1 - relLbound) = min (rule k) rbound + 1 := by
        omega
      rw [hsplit, days_add, hstart]

/-- Years go forward from a date. -/
def Calendar.YearsForward : Prop := ∀ d, cal.addYears d 0 = d ∧ StrictMono (cal.addYears d)

/-- A query of a range is answered with its days. -/
theorem queryAbstraction_eq (hyears : cal.YearsForward) (lbound rbound : ℕ) :
    queryAbstraction cal (daysIn cal series) lbound rbound = daysIn cal series lbound rbound := by
  have hfirst : lbound < cal.addYears lbound 1 := by
    have hlt := (hyears lbound).2 Nat.zero_lt_one
    rwa [(hyears lbound).1] at hlt
  refine flatMap_queryRanges cal series (hyears _).2 rbound (by omega) ?_
  rw [(hyears _).1]
  exact hfirst.le

end Days

section Weeks

variable (cal : Calendar) (series : ℕ → Option ℤ)

/-- What is stored of the week of `n` days that begins at `first`. -/
def weekEntry (first n : ℕ) : List DownloadCount :=
  let count := weeklyCount ⟨cal.dayText first, series first⟩ (days cal series (first + 1) (n - 1))
  if isStored count then [⟨first, count⟩] else []

variable {cal}

theorem append_weekEntry (weeklyResults : List DownloadCount) (first n : ℕ) :
    weeklyResults ++ weekEntry cal series first n =
      if isStored (weeklyCount ⟨cal.dayText first, series first⟩
        (days cal series (first + 1) (n - 1))) then
        weeklyResults ++ [⟨first, weeklyCount ⟨cal.dayText first, series first⟩
          (days cal series (first + 1) (n - 1))⟩]
      else weeklyResults := by
  rw [weekEntry]
  split_ifs
  · rfl
  · rw [List.append_nil]

theorem isEmpty_days (first n : ℕ) : (days cal series first n).isEmpty = true ↔ n = 0 := by
  rw [List.isEmpty_iff_length_eq_zero, length_days]

/-- One round of the loop takes a week, or the days that are left. -/
theorem weekLoop_days (weeklyResults : List DownloadCount) {first n : ℕ}
    (hparse : cal.parseFromStr (cal.dayText first) = some first) (hn : 0 < n) :
    weekLoop cal weeklyResults (days cal series first n) =
      if n ≤ 7 then some (weeklyResults ++ weekEntry cal series first n, first)
      else weekLoop cal (weeklyResults ++ weekEntry cal series first 7)
        (days cal series (first + 7) (n - 7)) := by
  obtain ⟨m, rfl⟩ : ∃ m, n = m + 1 := ⟨n - 1, by omega⟩
  rw [days_succ, weekLoop, append_weekEntry, append_weekEntry]
  simp only [hparse, Option.bind_eq_bind, Option.bind_some, take_days, drop_days, isEmpty_days,
    Nat.add_sub_cancel]
  by_cases hm : m ≤ 6
  · rw [if_pos (show m - 6 = 0 by omega), if_pos (show m + 1 ≤ 7 by omega), min_eq_right hm]
    rfl
  · rw [if_neg (show ¬m - 6 = 0 by omega), if_neg (show ¬m + 1 ≤ 7 by omega),
      min_eq_left (show 6 ≤ m by omega), show m + 1 - 7 = m - 6 by omega]

/-- What is stored of a number of full weeks. -/
def fullWeeks (cal : Calendar) (first : ℕ) : ℕ → List DownloadCount
  | 0 => []
  | w + 1 => weekEntry cal series first 7 ++ fullWeeks cal (first + 7) w

theorem fullWeeks_add (first v w : ℕ) : fullWeeks series cal first (v + w) =
    fullWeeks series cal first v ++ fullWeeks series cal (first + 7 * v) w := by
  induction v generalizing first with
  | zero => simp [fullWeeks]
  | succ v ih =>
    have hstart : first + 7 + 7 * v = first + 7 * (v + 1) := by omega
    rw [Nat.succ_add, fullWeeks, fullWeeks, ih, hstart, List.append_assoc]

/-- The loop over full weeks and the days that are left. -/
theorem weekLoop_weeks (weeklyResults : List DownloadCount) (w : ℕ) {first m : ℕ} (hm : 0 < m)
    (hweek : m ≤ 7)
    (hparse : ∀ d, first ≤ d → d < first + (7 * w + m) →
      cal.parseFromStr (cal.dayText d) = some d) :
    weekLoop cal weeklyResults (days cal series first (7 * w + m)) =
      some (weeklyResults ++ (fullWeeks series cal first w ++
        weekEntry cal series (first + 7 * w) m), first + 7 * w) := by
  induction w generalizing first weeklyResults with
  | zero =>
    rw [weekLoop_days series _ (hparse first le_rfl (by omega)) (by omega), if_pos (by omega)]
    simp [fullWeeks]
  | succ w ih =>
    have hleft : 7 * (w + 1) + m - 7 = 7 * w + m := by omega
    have hstart : first + 7 + 7 * w = first + 7 * (w + 1) := by omega
    rw [weekLoop_days series _ (hparse first le_rfl (by omega)) (by omega), if_neg (by omega), hleft,
      ih _ fun d hd hd' => hparse d (by omega) (by omega), hstart, fullWeeks]
    simp only [List.append_assoc]

theorem date_of_mem_weekEntry {first n : ℕ} {count : DownloadCount}
    (hcount : count ∈ weekEntry cal series first n) : count.date = first := by
  rw [weekEntry] at hcount
  split_ifs at hcount
  · rw [List.mem_singleton.mp hcount]
  · simp at hcount

theorem date_of_mem_fullWeeks {first w : ℕ} {count : DownloadCount}
    (hcount : count ∈ fullWeeks series cal first w) :
    first ≤ count.date ∧ count.date < first + 7 * w := by
  induction w generalizing first with
  | zero => simp [fullWeeks] at hcount
  | succ w ih =>
    rw [fullWeeks, List.mem_append] at hcount
    rcases hcount with hweek | hrest
    · have hdate := date_of_mem_weekEntry series hweek
      omega
    · have hdate := ih hrest
      omega

end Weeks

section Counts

variable (cal : Calendar) (series : ℕ → Option ℤ)

/-- The days have numbers whose sum, as an `i64`, is positive. -/
def Counted (first n : ℕ) : Prop :=
  ∃ counts : List ℤ, (List.range' first n).map series = counts.map some ∧
    0 < counts.sum.bmod (2 ^ 64)

theorem foldl_addI64 (counts : List ℤ) {c : ℤ} (hc : c.bmod (2 ^ 64) = c) :
    counts.foldl addI64 c = (c + counts.sum).bmod (2 ^ 64) := by
  induction counts generalizing c with
  | nil => simp only [List.foldl_nil, List.sum_nil, add_zero, hc]
  | cons d counts ih =>
    have hstep : (addI64 c d).bmod (2 ^ 64) = addI64 c d := Int.bmod_bmod ..
    rw [List.foldl_cons, ih hstep, List.sum_cons, addI64, Int.bmod_add_bmod, add_assoc]

/-- A null day makes the week null. -/
theorem weeklyCount_eq_some_iff (first : ApiResultDownload) (rest : List ApiResultDownload) (x : ℤ) :
    weeklyCount first rest = some x ↔ ∃ (c : ℤ) (counts : List ℤ), first.downloads = some c ∧
      rest.map ApiResultDownload.downloads = counts.map some ∧ counts.foldl addI64 c = x := by
  rw [weeklyCount]
  generalize first.downloads = wc
  induction rest generalizing wc with
  | nil =>
    constructor
    · intro h
      exact ⟨x, [], h, rfl, rfl⟩
    · rintro ⟨c, counts, rfl, hcounts, hsum⟩
      cases counts with
      | nil => rw [← hsum]; rfl
      | cons d counts => simp at hcounts
  | cons d rest ih =>
    rw [List.foldl_cons, ih]
    constructor
    · rintro ⟨c, counts, hwc, hcounts, hsum⟩
      obtain ⟨w, rfl, hw⟩ := Option.bind_eq_some_iff.mp hwc
      obtain ⟨cc, hcc, rfl⟩ := Option.map_eq_some_iff.mp hw
      exact ⟨w, cc :: counts, rfl, by rw [List.map_cons, List.map_cons, hcc, hcounts], hsum⟩
    · rintro ⟨c, counts, rfl, hcounts, hsum⟩
      cases counts with
      | nil => simp at hcounts
      | cons cc counts =>
        rw [List.map_cons, List.map_cons, List.cons.injEq] at hcounts
        exact ⟨addI64 c cc, counts, by rw [hcounts.1]; rfl, hcounts.2, hsum⟩

/-- Which weeks are stored. -/
theorem isStored_iff {first n : ℕ} (hn : 0 < n)
    (hseries : ∀ c, series first = some c → 0 ≤ c ∧ c < 2 ^ 63) :
    isStored (weeklyCount ⟨cal.dayText first, series first⟩ (days cal series (first + 1) (n - 1))) =
      true ↔ Counted series first n := by
  obtain ⟨m, rfl⟩ : ∃ m, n = m + 1 := ⟨n - 1, by omega⟩
  have hdays : (days cal series (first + 1) m).map ApiResultDownload.downloads =
      (List.range' (first + 1) m).map series := by
    rw [days, List.map_map]
    rfl
  have hwrap {c : ℤ} (hc : series first = some c) : c.bmod (2 ^ 64) = c := by
    have hrange := hseries c hc
    exact Int.bmod_eq_of_le (by omega) (by omega)
  rw [isStored, Option.any_eq_true, Counted, List.range'_succ, List.map_cons, Nat.add_sub_cancel]
  constructor
  · rintro ⟨x, hx, hpos⟩
    obtain ⟨c, counts, hfirst, hcounts, rfl⟩ := (weeklyCount_eq_some_iff _ _ _).mp hx
    rw [hdays] at hcounts
    rw [foldl_addI64 counts (hwrap hfirst), decide_eq_true_iff] at hpos
    exact ⟨c :: counts, by rw [List.map_cons, ← hcounts]; exact congrArg (· :: _) hfirst,
      by rwa [List.sum_cons]⟩
  · rintro ⟨counts, hcounts, hpos⟩
    cases counts with
    | nil => simp at hcounts
    | cons c counts =>
      rw [List.map_cons, List.cons.injEq] at hcounts
      rw [List.sum_cons] at hpos
      refine ⟨counts.foldl addI64 c, (weeklyCount_eq_some_iff _ _ _).mpr
        ⟨c, counts, hcounts.1, hdays.trans hcounts.2, rfl⟩, ?_⟩
      rwa [foldl_addI64 counts (hwrap hcounts.1), decide_eq_true_iff]

theorem weekEntry_ne_nil_iff {first n : ℕ} (hn : 0 < n)
    (hseries : ∀ c, series first = some c → 0 ≤ c ∧ c < 2 ^ 63) :
    weekEntry cal series first n ≠ [] ↔ Counted series first n := by
  rw [← isStored_iff cal series hn hseries, weekEntry]
  split_ifs with hstored
  · simp [hstored]
  · simp [hstored]

end Counts

end NpmFollower.DownloadMetrics
