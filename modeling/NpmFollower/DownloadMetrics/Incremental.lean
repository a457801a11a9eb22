import NpmFollower.DownloadMetrics.MakeMetric

/-! # Updating a download metric

A metric made up to one date is updated from its last week on. The updated
metric is the one made up to the later date unless the last week was stored
and, with its later days, is not stored again.
-/

namespace NpmFollower.DownloadMetrics

/-- The tenth of January 2015. -/
def lowerBoundDate : ℕ := 735608

/-- The last count of the older metric gives way to a newer count of the same date. -/
def updateCounts (olderCounts counts : List DownloadCount) : List DownloadCount :=
  let kept :=
    match olderCounts.getLast?, counts.head? with
    | some olderLast, some first =>
      if olderLast.date = first.date then olderCounts.dropLast else olderCounts
    | _, _ => olderCounts
  kept ++ counts

/-- The metric of a package up to a date. -/
def insertedMetric (cal : Calendar) (answer : ℕ → ℕ → List ApiResultDownload) (packageId : ℤ)
    (upperBoundDate : ℕ) : Option DownloadMetric :=
  makeDownloadMetric cal packageId (queryAbstraction cal answer lowerBoundDate upperBoundDate)

/-- What `update_from_packages` makes of an older metric. -/
def updatedMetric (cal : Calendar) (answer : ℕ → ℕ → List ApiResultDownload)
    (olderMetric : DownloadMetric) (upperBoundDate : ℕ) : Option DownloadMetric :=
  (makeDownloadMetric cal olderMetric.packageId
    (queryAbstraction cal answer olderMetric.latestDate upperBoundDate)).map fun metric =>
      { metric with
        downloadCounts := updateCounts olderMetric.downloadCounts metric.downloadCounts }

section UpdateCounts

variable {first : ℕ}

/-- Counts before the newer ones stay. -/
theorem updateCounts_of_lt {olderCounts counts : List DownloadCount}
    (holder : ∀ count ∈ olderCounts, count.date < first)
    (hcounts : ∀ count ∈ counts, first ≤ count.date) :
    updateCounts olderCounts counts = olderCounts ++ counts := by
  rw [updateCounts]
  split
  case h_1 olderLast newer hlast hhead =>
    have hlt := holder _ (List.mem_of_getLast? hlast)
    have hle := hcounts _ (List.mem_of_head? hhead)
    rw [if_neg (by omega)]
  case h_2 => rfl

/-- The last count is replaced by the one of its date. -/
theorem updateCounts_replace (olderCounts counts : List DownloadCount)
    {older newer : DownloadCount} (hdate : older.date = newer.date) :
    updateCounts (olderCounts ++ [older]) (newer :: counts) = olderCounts ++ newer :: counts := by
  simp [updateCounts, hdate]

/-- The last count stays before later ones. -/
theorem updateCounts_keep (olderCounts : List DownloadCount) {counts : List DownloadCount}
    {older : DownloadCount} (hcounts : ∀ count ∈ counts, older.date < count.date) :
    updateCounts (olderCounts ++ [older]) counts = olderCounts ++ [older] ++ counts := by
  rw [updateCounts, List.getLast?_append_of_ne_nil _ (List.cons_ne_nil _ _)]
  split
  case h_1 olderLast newer hlast hhead =>
    have hlt := hcounts _ (List.mem_of_head? hhead)
    rw [List.getLast?_singleton, Option.some.injEq] at hlast
    rw [if_neg (by rw [← hlast]; omega)]
  case h_2 => rfl

end UpdateCounts

section Runs

variable {cal : Calendar} (series : ℕ → Option ℤ) (packageId : ℤ)

/-- The texts of the days of a range are read as these days. -/
def Calendar.ReadsBack (cal : Calendar) (first last : ℕ) : Prop :=
  ∀ d, first ≤ d → d ≤ last → cal.parseFromStr (cal.dayText d) = some d

/-- The metric of a range. -/
theorem makeDownloadMetric_range (hyears : cal.YearsForward) (lbound w : ℕ) {m : ℕ} (hm : 0 < m)
    (hweek : m ≤ 7) (hread : cal.ReadsBack lbound (lbound + 7 * w + m - 1)) :
    makeDownloadMetric cal packageId
        (queryAbstraction cal (daysIn cal series) lbound (lbound + 7 * w + m - 1)) =
      some ⟨packageId, fullWeeks series cal lbound w ++ weekEntry cal series (lbound + 7 * w) m,
        lbound + 7 * w⟩ := by
  have hlength : lbound + 7 * w + m - 1 + 1 - lbound = 7 * w + m := by omega
  rw [makeDownloadMetric, queryAbstraction_eq cal series hyears, daysIn, hlength,
    weekLoop_weeks series [] w hm hweek fun d hd hd' => hread d hd (by omega)]
  rfl

/-- The first week of a range, and what is stored after it. -/
theorem exists_firstWeek (cal : Calendar) (first w : ℕ) {m : ℕ} (hm : 0 < m) (hweek : m ≤ 7) :
    ∃ rest, fullWeeks series cal first w ++ weekEntry cal series (first + 7 * w) m =
        weekEntry cal series first (min 7 (7 * w + m)) ++ rest ∧
      ∀ count ∈ rest, first < count.date := by
  cases w with
  | zero =>
    have hdays : min 7 (7 * 0 + m) = m := by omega
    exact ⟨[], by rw [hdays]; simp [fullWeeks], by simp⟩
  | succ w =>
    have hdays : min 7 (7 * (w + 1) + m) = 7 := by omega
    refine ⟨fullWeeks series cal (first + 7) w ++ weekEntry cal series (first + 7 * (w + 1)) m,
      by rw [hdays, fullWeeks, List.append_assoc], ?_⟩
    intro count hcount
    rcases List.mem_append.mp hcount with hfull | hlast
    · have hdate := date_of_mem_fullWeeks series hfull
      omega
    · have hdate := date_of_mem_weekEntry series hlast
      omega

/-- An update is right when the last week is stored again if it was stored. -/
theorem updateCounts_weeks {before rest : List DownloadCount} {first m n : ℕ}
    (hbefore : ∀ count ∈ before, count.date < first)
    (hrest : ∀ count ∈ rest, first < count.date) :
    updateCounts (before ++ weekEntry cal series first m) (weekEntry cal series first n ++ rest) =
        before ++ (weekEntry cal series first n ++ rest) ↔
      (weekEntry cal series first m ≠ [] → weekEntry cal series first n ≠ []) := by
  have hcases (k : ℕ) : weekEntry cal series first k = [] ∨
      ∃ count, weekEntry cal series first k = [⟨first, count⟩] := by
    rw [weekEntry]
    split_ifs
    · exact Or.inr ⟨_, rfl⟩
    · exact Or.inl rfl
  rcases hcases m with hold | ⟨older, hold⟩
  · have hcounts : ∀ count ∈ weekEntry cal series first n ++ rest, first ≤ count.date := by
      intro count hcount
      rcases List.mem_append.mp hcount with hweek | hlater
      · exact (date_of_mem_weekEntry series hweek).ge
      · exact (hrest count hlater).le
    rw [hold, List.append_nil, updateCounts_of_lt hbefore hcounts]
    simp
  · rcases hcases n with hnew | ⟨newer, hnew⟩
    · rw [hold, hnew, List.nil_append, updateCounts_keep before hrest]
      simp
    · have hreplace : updateCounts (before ++ [⟨first, older⟩]) (⟨first, newer⟩ :: rest) =
          before ++ ⟨first, newer⟩ :: rest := updateCounts_replace before rest rfl
      rw [hold, hnew, List.singleton_append, hreplace]
      simp

/-- The metric made up to a date and then updated has the counts and the latest date of the
metric made once. -/
def SameAsOnce (cal : Calendar) (series : ℕ → Option ℤ) (packageId : ℤ) (date date' : ℕ) : Prop :=
  ∃ olderMetric metric onceMetric,
    insertedMetric cal (daysIn cal series) packageId date = some olderMetric ∧
    updatedMetric cal (daysIn cal series) olderMetric date' = some metric ∧
    insertedMetric cal (daysIn cal series) packageId date' = some onceMetric ∧
    metric.downloadCounts = onceMetric.downloadCounts ∧ metric.latestDate = onceMetric.latestDate

/-- Updating against making once, in weeks and days. -/
theorem sameAsOnce_weeks (hyears : cal.YearsForward) {v m w n : ℕ} (hm : 0 < m) (hm' : m ≤ 7)
    (hn : 0 < n) (hn' : n ≤ 7) (hmn : m ≤ 7 * w + n)
    (hread : cal.ReadsBack lowerBoundDate (lowerBoundDate + 7 * (v + w) + n - 1)) :
    SameAsOnce cal series packageId (lowerBoundDate + 7 * v + m - 1)
        (lowerBoundDate + 7 * (v + w) + n - 1) ↔
      (weekEntry cal series (lowerBoundDate + 7 * v) m ≠ [] →
        weekEntry cal series (lowerBoundDate + 7 * v) (min 7 (7 * w + n)) ≠ []) := by
  have hlast : lowerBoundDate + 7 * (v + w) + n - 1 = lowerBoundDate + 7 * v + 7 * w + n - 1 := by
    omega
  have hstart : lowerBoundDate + 7 * (v + w) = lowerBoundDate + 7 * v + 7 * w := by omega
  have holder := makeDownloadMetric_range series packageId hyears lowerBoundDate v hm hm'
    fun d hd hd' => hread d hd (by omega)
  have honce := makeDownloadMetric_range series packageId hyears lowerBoundDate (v + w) hn hn' hread
  have hnewer := makeDownloadMetric_range series packageId hyears (lowerBoundDate + 7 * v) w hn hn'
    fun d hd hd' => hread d (by omega) (by omega)
  obtain ⟨rest, hweeks, hrest⟩ :=
    exists_firstWeek series cal (lowerBoundDate + 7 * v) w hn hn'
  have hbefore (count : DownloadCount)
      (hcount : count ∈ fullWeeks series cal lowerBoundDate v) :
      count.date < lowerBoundDate + 7 * v := (date_of_mem_fullWeeks series hcount).2
  have hmetric (olderCounts : List DownloadCount) :
      updatedMetric cal (daysIn cal series) ⟨packageId, olderCounts, lowerBoundDate + 7 * v⟩
          (lowerBoundDate + 7 * (v + w) + n - 1) =
        some ⟨packageId, updateCounts olderCounts (fullWeeks series cal (lowerBoundDate + 7 * v) w ++
          weekEntry cal series (lowerBoundDate + 7 * v + 7 * w) n),
          lowerBoundDate + 7 * v + 7 * w⟩ := by
    rw [updatedMetric, hlast, hnewer, Option.map_some]
  have hsame : SameAsOnce cal series packageId (lowerBoundDate + 7 * v + m - 1)
      (lowerBoundDate + 7 * (v + w) + n - 1) ↔
        updateCounts (fullWeeks series cal lowerBoundDate v ++
            weekEntry cal series (lowerBoundDate + 7 * v) m)
          (fullWeeks series cal (lowerBoundDate + 7 * v) w ++
            weekEntry cal series (lowerBoundDate + 7 * v + 7 * w) n) =
        fullWeeks series cal lowerBoundDate (v + w) ++
          weekEntry cal series (lowerBoundDate + 7 * (v + w)) n := by
    constructor
    · rintro ⟨olderMetric, metric, onceMetric, hinserted, hupdated, hinserted', hcounts, -⟩
      cases holder.symm.trans hinserted
      cases honce.symm.trans hinserted'
      cases (hmetric _).symm.trans hupdated
      exact hcounts
    · intro hcounts
      exact ⟨_, _, _, holder, hmetric _, honce, hcounts, hstart.symm⟩
  rw [hsame, ← updateCounts_weeks series hbefore hrest, ← hweeks, fullWeeks_add, hstart,
    List.append_assoc]

/-- The first day of the week of a date. -/
def weekStart (date : ℕ) : ℕ := lowerBoundDate + 7 * ((date - lowerBoundDate) / 7)

/-- An updated metric is the one made once if and only if the last week of the older metric, when
it was stored, is stored again with its later days. -/
theorem updatedMetric_iff (hyears : cal.YearsForward) {date date' : ℕ}
    (hdate : lowerBoundDate ≤ date) (hdate' : date ≤ date')
    (hread : cal.ReadsBack lowerBoundDate date')
    (hseries : ∀ d c, series d = some c → 0 ≤ c ∧ c < 2 ^ 63) :
    SameAsOnce cal series packageId date date' ↔
      (Counted series (weekStart date) (date + 1 - weekStart date) →
        Counted series (weekStart date) (min 7 (date' + 1 - weekStart date))) := by
  obtain ⟨a, rfl⟩ : ∃ a, date = lowerBoundDate + a := ⟨date - lowerBoundDate, by omega⟩
  obtain ⟨b, rfl⟩ : ∃ b, date' = lowerBoundDate + b := ⟨date' - lowerBoundDate, by omega⟩
  -- the week of a date and the days of it
  have hstart : weekStart (lowerBoundDate + a) = lowerBoundDate + 7 * (a / 7) := by
    rw [weekStart, Nat.add_sub_cancel_left]
  have hend : lowerBoundDate + a = lowerBoundDate + 7 * (a / 7) + (a % 7 + 1) - 1 := by omega
  have hend' : lowerBoundDate + b =
      lowerBoundDate + 7 * (a / 7 + (b / 7 - a / 7)) + (b % 7 + 1) - 1 := by omega
  have hfirst : lowerBoundDate + a + 1 - (lowerBoundDate + 7 * (a / 7)) = a % 7 + 1 := by omega
  have hsecond : lowerBoundDate + b + 1 - (lowerBoundDate + 7 * (a / 7)) =
      7 * (b / 7 - a / 7) + (b % 7 + 1) := by omega
  have hweeks := sameAsOnce_weeks (v := a / 7) (m := a % 7 + 1) (w := b / 7 - a / 7)
    (n := b % 7 + 1) series packageId hyears (by omega) (by omega) (by omega) (by omega) (by omega)
    (by rwa [← hend'])
  rw [← hend, ← hend', weekEntry_ne_nil_iff cal series (by omega) (hseries _),
    weekEntry_ne_nil_iff cal series (by omega) (hseries _)] at hweeks
  rw [hstart, hfirst, hsecond, hweeks]

end Runs

section January

/-- A calendar for the days from the tenth to the thirtieth of January 2015. -/
def january : Calendar where
  dayText d := "2015-01-" ++ (d - 735598).repr
  parseFromStr text :=
    (List.range' lowerBoundDate 21).find? fun d => "2015-01-" ++ (d - 735598).repr == text
  addYears d n := d + 365 * n

theorem january_yearsForward : january.YearsForward := by
  intro d
  refine ⟨by simp [january], ?_⟩
  intro m n hmn
  simp only [january]
  omega

theorem january_readsBack : january.ReadsBack lowerBoundDate (lowerBoundDate + 20) := by
  have hdays : ∀ k < 21, january.parseFromStr (january.dayText (lowerBoundDate + k)) =
      some (lowerBoundDate + k) := by decide +kernel
  intro d hd hd'
  have hday := hdays (d - lowerBoundDate) (by omega)
  rwa [Nat.add_sub_cancel' hd] at hday

/-- The first day has one download, the other days are null: made once, no week is stored, but the
update keeps the week of the first day. -/
theorem updatedMetric_keeps_week : ¬∀ (cal : Calendar) (series : ℕ → Option ℤ) (packageId : ℤ)
    (date date' : ℕ), cal.YearsForward → lowerBoundDate ≤ date → date ≤ date' →
    cal.ReadsBack lowerBoundDate date' → (∀ d c, series d = some c → 0 ≤ c ∧ c < 2 ^ 63) →
    SameAsOnce cal series packageId date date' := by
  intro hall
  let series (d : ℕ) : Option ℤ := if d = lowerBoundDate then some 1 else none
  have hseries (d : ℕ) (c : ℤ) (hc : series d = some c) : 0 ≤ c ∧ c < 2 ^ 63 := by
    simp only [series] at hc
    split_ifs at hc
    cases hc
    omega
  have hsame := hall january series 1 lowerBoundDate (lowerBoundDate + 20) january_yearsForward le_rfl
    (by omega) january_readsBack hseries
  exact (sameAsOnce_weeks (v := 0) (m := 1) (w := 2) (n := 7) series 1 january_yearsForward
    (by omega) (by omega) (by omega) (by omega) (by omega) january_readsBack).mp hsame
    (by decide +kernel) (by decide +kernel)

/-- One download on each day. -/
theorem updatedMetric_iff_ones : SameAsOnce january (fun _ => some 1) 1 lowerBoundDate
    (lowerBoundDate + 20) :=
  (updatedMetric_iff _ 1 january_yearsForward le_rfl (by omega) january_readsBack
    fun _ _ hc => by cases hc; omega).mpr fun _ => ⟨List.replicate 7 1, by decide, by decide⟩

end January

end NpmFollower.DownloadMetrics
