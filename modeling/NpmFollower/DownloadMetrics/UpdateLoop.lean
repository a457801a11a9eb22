import NpmFollower.Library.Endings
import NpmFollower.DownloadMetrics.Incremental

/-! # The update loop

`update_from_packages` selects up to 128 stale metrics, queries their packages,
writes the metrics of those that gave counts, and selects again until no metric
is stale.
-/

namespace NpmFollower.DownloadMetrics

open Endings

structure QueriedDownloadMetric where
  id : ℤ
  packageId : ℤ
  downloadCounts : List DownloadCount
  latestDate : ℕ
  deriving DecidableEq

/-- `From<QueriedDownloadMetric>`. -/
def QueriedDownloadMetric.toMetric (m : QueriedDownloadMetric) : DownloadMetric :=
  ⟨m.packageId, m.downloadCounts, m.latestDate⟩

/-- What the API says about a package: counts for every day, or an error other than the rate
limit. -/
inductive ApiOutcome where
  | counts (series : ℕ → Option ℤ)
  | doesNotExist
  | other (message : String)

/-! ## The staleness bound -/

section AWeekAgo

variable (cal : Calendar)

/-- The weeks that are traversed, until one is not before the bound. -/
def passWeeks (rbound : ℕ) : ℕ → ℕ → ℕ
  | 0, relLbound => relLbound
  | fuel + 1, relLbound =>
    if relLbound < rbound then passWeeks rbound fuel (relLbound + 7) else relLbound

/-- The last date that the yearly ranges end at. -/
def lastRbound (lbound rbound : ℕ) : ℕ :=
  ((queryRanges (cal.addYears (cal.addYears lbound 1)) rbound (rbound + 1 - lbound) 0
    lbound).getLast?.map (·.2)).getD lbound

def getAWeekAgo (lbound rbound : ℕ) : ℕ :=
  let res := lastRbound cal lbound rbound
  passWeeks res (res - lbound) lbound - 7

/-- The date in `query_metrics_older_than_a_week`. -/
def staleDate (upperBoundDate : ℕ) : ℕ := getAWeekAgo cal lowerBoundDate upperBoundDate - 7

end AWeekAgo

/-! ## One turn -/

section Turn

variable (cal : Calendar) (outcome : ℤ → ApiOutcome) (upperBoundDate : ℕ)

/-- The metric to update for one query task: an error is only printed, and `none` is a panic of
the task. -/
def metricToUpdate (m : QueriedDownloadMetric) : Option (Option (ℤ × DownloadMetric)) :=
  match outcome m.packageId with
  | .counts series =>
    (updatedMetric cal (daysIn cal series) m.toMetric upperBoundDate).map fun metric =>
      some (m.id, metric)
  | .doesNotExist => some none
  | .other _ => some none

def updateMetricById (rows : List QueriedDownloadMetric) (update : ℤ × DownloadMetric) :
    List QueriedDownloadMetric :=
  rows.map fun row =>
    if row.id = update.1 then
      ⟨row.id, update.2.packageId, update.2.downloadCounts, update.2.latestDate⟩
    else row

/-- The body of the loop for the metrics that were selected. -/
def updateMetrics (rows metrics : List QueriedDownloadMetric) :
    Option (List QueriedDownloadMetric) :=
  (metrics.mapM (metricToUpdate cal outcome upperBoundDate)).map fun updates =>
    updates.reduceOption.foldl updateMetricById rows

def staleMetrics (rows : List QueriedDownloadMetric) : List QueriedDownloadMetric :=
  rows.filter fun row => row.latestDate ≤ staleDate cal upperBoundDate

/-- What `query_metric_latest_less_than` may give: any 128 of the stale metrics, or all of them
if there are fewer. -/
structure Queried (rows metrics : List QueriedDownloadMetric) : Prop where
  stale : metrics.Subperm (staleMetrics cal upperBoundDate rows)
  limit : metrics.length = min 128 (staleMetrics cal upperBoundDate rows).length

/-- One turn of the loop, on the rows of the table. -/
def UpdateTurn (rows rows' : List QueriedDownloadMetric) : Prop :=
  ∃ metrics, Queried cal upperBoundDate rows metrics ∧ metrics ≠ [] ∧
    updateMetrics cal outcome upperBoundDate rows metrics = some rows'

end Turn

/-! ## Dates -/

section Dates

variable {cal : Calendar}

theorem passWeeks_spec {rbound fuel d : ℕ} (hfuel : rbound ≤ d + fuel) :
    rbound ≤ passWeeks rbound fuel d ∧ d ≤ passWeeks rbound fuel d ∧
      (passWeeks rbound fuel d < rbound + 7 ∨ passWeeks rbound fuel d = d) := by
  induction fuel generalizing d with
  | zero => exact ⟨hfuel, le_rfl, Or.inr rfl⟩
  | succ fuel ih =>
    rw [passWeeks]
    split_ifs with hlt
    · obtain ⟨hge, hle, hend⟩ := ih (show rbound ≤ d + 7 + fuel by omega)
      omega
    · exact ⟨by omega, le_rfl, Or.inr rfl⟩

theorem getLast?_queryRanges {rule : ℕ → ℕ} (hrule : StrictMono rule) {rbound fuel k relLbound : ℕ}
    (hbound : relLbound ≤ rbound) (hfuel : rbound + 1 ≤ relLbound + fuel)
    (hk : relLbound ≤ rule k) :
    (queryRanges rule rbound fuel k relLbound).getLast?.map (·.2) = some rbound := by
  induction fuel generalizing k relLbound with
  | zero => omega
  | succ fuel ih =>
    rw [queryRanges, if_neg (by omega)]
    have hnext : rule k < rule (k + 1) := hrule (Nat.lt_succ_self k)
    by_cases hlast : rbound ≤ rule k
    · have hnil : queryRanges rule rbound fuel (k + 1) (min (rule k) rbound + 1) = [] := by
        cases fuel with
        | zero => rfl
        | succ fuel => rw [queryRanges, if_pos (by omega)]
      rw [hnil, min_eq_right hlast]
      rfl
    · have hrest := ih (k := k + 1) (show min (rule k) rbound + 1 ≤ rbound by omega) (by omega)
        (by omega)
      have hne : queryRanges rule rbound fuel (k + 1) (min (rule k) rbound + 1) ≠ [] := by
        intro hnil
        rw [hnil] at hrest
        cases hrest
      rw [List.getLast?_cons_of_ne_nil hne, hrest]

theorem lastRbound_eq (hyears : cal.YearsForward) {lbound rbound : ℕ} (h : lbound ≤ rbound) :
    lastRbound cal lbound rbound = rbound := by
  have hfirst : lbound < cal.addYears lbound 1 := by
    have hlt := (hyears lbound).2 Nat.zero_lt_one
    rwa [(hyears lbound).1] at hlt
  have hk : lbound ≤ cal.addYears (cal.addYears lbound 1) 0 := by
    rw [(hyears _).1]
    exact hfirst.le
  rw [lastRbound, getLast?_queryRanges (hyears _).2 h (by omega) hk, Option.getD_some]

theorem lastRbound_of_lt {lbound rbound : ℕ} (h : rbound < lbound) :
    lastRbound cal lbound rbound = lbound := by
  have hzero : rbound + 1 - lbound = 0 := by omega
  rw [lastRbound, hzero]
  rfl

/-- A stale date is more than a week and a day before the upper bound. -/
theorem staleDate_add_lt (hyears : cal.YearsForward) {d upperBoundDate : ℕ}
    (hd : lowerBoundDate ≤ d) (hstale : d ≤ staleDate cal upperBoundDate) :
    staleDate cal upperBoundDate + 7 < upperBoundDate := by
  have hearly : 14 ≤ lowerBoundDate := by decide
  rw [staleDate, getAWeekAgo] at hstale ⊢
  rcases lt_or_ge upperBoundDate lowerBoundDate with hlt | hge
  · rw [lastRbound_of_lt hlt, Nat.sub_self, passWeeks] at hstale
    omega
  · rw [lastRbound_eq hyears hge] at hstale ⊢
    obtain ⟨-, -, hend⟩ := passWeeks_spec
      (show upperBoundDate ≤ lowerBoundDate + (upperBoundDate - lowerBoundDate) by omega)
    omega

end Dates

/-! ## Rows -/

section Rows

variable {cal : Calendar} {outcome : ℤ → ApiOutcome} {upperBoundDate : ℕ}

/-- A row with the first of the updates for its id. -/
def updatedRow (updates : List (ℤ × DownloadMetric)) (row : QueriedDownloadMetric) :
    QueriedDownloadMetric :=
  match updates.lookup row.id with
  | some metric => ⟨row.id, metric.packageId, metric.downloadCounts, metric.latestDate⟩
  | none => row

@[simp] theorem updatedRow_id (updates : List (ℤ × DownloadMetric)) (row : QueriedDownloadMetric) :
    (updatedRow updates row).id = row.id := by
  rw [updatedRow]
  split <;> rfl

theorem foldl_updateMetricById {updates : List (ℤ × DownloadMetric)}
    (hnodup : (updates.map (·.1)).Nodup) (rows : List QueriedDownloadMetric) :
    updates.foldl updateMetricById rows = rows.map (updatedRow updates) := by
  induction updates generalizing rows with
  | nil =>
    have hid : updatedRow [] = id := rfl
    rw [hid, List.map_id]
    rfl
  | cons update updates ih =>
    obtain ⟨id, metric⟩ := update
    rw [List.map_cons, List.nodup_cons] at hnodup
    rw [List.foldl_cons, ih hnodup.2, updateMetricById, List.map_map]
    apply List.map_congr_left
    intro row _
    by_cases hid : row.id = id
    · have hnone : updates.lookup row.id = none := by
        rw [List.lookup_eq_none_iff]
        intro other hother
        have hmem : other.1 ∈ updates.map (·.1) := List.mem_map_of_mem hother
        have hne : row.id ≠ other.1 := fun heq => hnodup.1 (by rwa [← hid, heq])
        simpa using hne
      subst hid
      simp only [Function.comp_apply, if_pos, updatedRow, hnone, List.lookup_cons_self]
    · have hskip : ((id, metric) :: updates).lookup row.id = updates.lookup row.id := by
        rw [List.lookup_cons, beq_eq_false_iff_ne.mpr hid]
      simp only [Function.comp_apply, if_neg hid, updatedRow, hskip]

/-- The API gives counts for the package of the row. -/
def Answered (outcome : ℤ → ApiOutcome) (row : QueriedDownloadMetric) : Prop :=
  ∃ series, outcome row.packageId = .counts series

variable (hyears : cal.YearsForward) (hread : cal.ReadsBack lowerBoundDate upperBoundDate)

include hyears hread

/-- A row with counts gets a date that is not stale. -/
theorem metricToUpdate_answered {row : QueriedDownloadMetric}
    (hlower : lowerBoundDate ≤ row.latestDate)
    (hstale : row.latestDate ≤ staleDate cal upperBoundDate) (hanswered : Answered outcome row) :
    ∃ metric, metricToUpdate cal outcome upperBoundDate row = some (some (row.id, metric)) ∧
      metric.packageId = row.packageId ∧ lowerBoundDate ≤ metric.latestDate ∧
      staleDate cal upperBoundDate < metric.latestDate := by
  obtain ⟨series, hseries⟩ := hanswered
  have hbound := staleDate_add_lt hyears hlower hstale
  obtain ⟨w, m, hm, hm', hdays⟩ : ∃ w m, 0 < m ∧ m ≤ 7 ∧
      upperBoundDate = row.latestDate + 7 * w + m - 1 :=
    ⟨(upperBoundDate - row.latestDate) / 7, (upperBoundDate - row.latestDate) % 7 + 1, by omega⟩
  have hmetric := makeDownloadMetric_range series row.packageId hyears row.latestDate w hm hm'
    fun d hd hd' => hread d (by omega) (by omega)
  rw [← hdays] at hmetric
  obtain ⟨counts, hcounts⟩ : ∃ counts, makeDownloadMetric cal row.packageId
      (queryAbstraction cal (daysIn cal series) row.latestDate upperBoundDate) =
        some ⟨row.packageId, counts, row.latestDate + 7 * w⟩ := ⟨_, hmetric⟩
  refine ⟨⟨row.packageId, updateCounts row.downloadCounts counts, row.latestDate + 7 * w⟩,
    ?_, rfl, ?_, ?_⟩
  · simp only [metricToUpdate, hseries, updatedMetric, QueriedDownloadMetric.toMetric, hcounts,
      Option.map_some]
  · exact Nat.le_add_right_of_le hlower
  · change staleDate cal upperBoundDate < row.latestDate + 7 * w
    omega

omit hyears hread in
theorem metricToUpdate_failed {row : QueriedDownloadMetric} (hfailed : ¬ Answered outcome row) :
    metricToUpdate cal outcome upperBoundDate row = some none := by
  rw [metricToUpdate]
  cases h : outcome row.packageId with
  | counts series => exact absurd ⟨series, h⟩ hfailed
  | doesNotExist => rfl
  | other message => rfl

variable (outcome) in
/-- The updates that the selected metrics lead to: one for each row with counts. -/
theorem mapM_metricToUpdate {metrics : List QueriedDownloadMetric}
    (hlower : ∀ row ∈ metrics, lowerBoundDate ≤ row.latestDate)
    (hstale : ∀ row ∈ metrics, row.latestDate ≤ staleDate cal upperBoundDate) :
    ∃ results, metrics.mapM (metricToUpdate cal outcome upperBoundDate) = some results ∧
      (results.reduceOption.map (·.1)).Sublist (metrics.map (·.id)) ∧
      (∀ update ∈ results.reduceOption, ∃ row ∈ metrics, update.1 = row.id ∧ Answered outcome row ∧
        update.2.packageId = row.packageId ∧ lowerBoundDate ≤ update.2.latestDate ∧
        staleDate cal upperBoundDate < update.2.latestDate) ∧
      ∀ row ∈ metrics, Answered outcome row → row.id ∈ results.reduceOption.map (·.1) := by
  induction metrics with
  | nil => exact ⟨[], rfl, by simp, by simp, by simp⟩
  | cons row metrics ih =>
    obtain ⟨results, hmap, hsub, hall, hanswered⟩ :=
      ih (fun r hr => hlower r (List.mem_cons_of_mem _ hr))
        fun r hr => hstale r (List.mem_cons_of_mem _ hr)
    by_cases hrow : Answered outcome row
    · obtain ⟨metric, hmetric, hpackage, hdate, hfresh⟩ := metricToUpdate_answered hyears hread
        (hlower row List.mem_cons_self) (hstale row List.mem_cons_self) hrow
      refine ⟨some (row.id, metric) :: results, ?_, ?_, ?_, ?_⟩
      · simp [List.mapM_cons, hmetric, hmap]
      · rw [List.reduceOption_cons_of_some, List.map_cons, List.map_cons]
        exact hsub.cons_cons _
      · intro update hupdate
        rw [List.reduceOption_cons_of_some] at hupdate
        rcases List.mem_cons.mp hupdate with rfl | hupdate
        · exact ⟨row, List.mem_cons_self, rfl, hrow, hpackage, hdate, hfresh⟩
        · obtain ⟨r, hr, hrest⟩ := hall update hupdate
          exact ⟨r, List.mem_cons_of_mem _ hr, hrest⟩
      · intro r hr hansw
        rw [List.reduceOption_cons_of_some, List.map_cons]
        rcases List.mem_cons.mp hr with rfl | hr
        · exact List.mem_cons_self
        · exact List.mem_cons_of_mem _ (hanswered r hr hansw)
    · refine ⟨none :: results, ?_, ?_, ?_, ?_⟩
      · simp [List.mapM_cons, metricToUpdate_failed hrow, hmap]
      · rw [List.reduceOption_cons_of_none]
        exact hsub.cons _
      · intro update hupdate
        rw [List.reduceOption_cons_of_none] at hupdate
        obtain ⟨r, hr, hrest⟩ := hall update hupdate
        exact ⟨r, List.mem_cons_of_mem _ hr, hrest⟩
      · intro r hr hansw
        rw [List.reduceOption_cons_of_none]
        rcases List.mem_cons.mp hr with rfl | hr
        · exact absurd hansw hrow
        · exact hanswered r hr hansw

end Rows

/-- Ids are a key, and no date is before the lower bound. -/
structure SoundRows (rows : List QueriedDownloadMetric) : Prop where
  ids : (rows.map (·.id)).Nodup
  lower : ∀ row ∈ rows, lowerBoundDate ≤ row.latestDate

section Turns

variable {cal : Calendar} {outcome : ℤ → ApiOutcome} {upperBoundDate : ℕ}
  {rows metrics : List QueriedDownloadMetric}
variable (hyears : cal.YearsForward) (hread : cal.ReadsBack lowerBoundDate upperBoundDate)

include hyears hread

/-- A turn leaves a row as it is, or gives it a date that is not stale; those selected rows with
counts get one. -/
theorem updateMetrics_eq (hrows : SoundRows rows)
    (hqueried : Queried cal upperBoundDate rows metrics) :
    ∃ updates, updateMetrics cal outcome upperBoundDate rows metrics =
        some (rows.map (updatedRow updates)) ∧
      (∀ row ∈ rows, updatedRow updates row = row ∨ Answered outcome row ∧
        (updatedRow updates row).packageId = row.packageId ∧
        lowerBoundDate ≤ (updatedRow updates row).latestDate ∧
        staleDate cal upperBoundDate < (updatedRow updates row).latestDate) ∧
      ∀ row ∈ metrics, Answered outcome row →
        staleDate cal upperBoundDate < (updatedRow updates row).latestDate := by
  have hmem : ∀ row ∈ metrics, row ∈ rows ∧ row.latestDate ≤ staleDate cal upperBoundDate := by
    intro row hrow
    have hstale := List.mem_filter.mp (hqueried.stale.subset hrow)
    exact ⟨hstale.1, by simpa using hstale.2⟩
  obtain ⟨results, hmap, hsub, hall, hanswered⟩ := mapM_metricToUpdate outcome hyears
    hread (fun row hrow => hrows.lower row (hmem row hrow).1) fun row hrow => (hmem row hrow).2
  have hids : (metrics.map (·.id)).Nodup := by
    obtain ⟨metrics', hperm, hsublist⟩ := hqueried.stale
    rw [← (hperm.map _).nodup_iff]
    exact hrows.ids.sublist ((hsublist.trans List.filter_sublist).map _)
  have hnodup := hids.sublist hsub
  have hlookup : ∀ row ∈ rows, ∀ metric, results.reduceOption.lookup row.id = some metric →
      Answered outcome row ∧ metric.packageId = row.packageId ∧
        lowerBoundDate ≤ metric.latestDate ∧ staleDate cal upperBoundDate < metric.latestDate := by
    intro row hrow metric hmetric
    obtain ⟨before, after, hsplit, -⟩ := List.lookup_eq_some_iff.mp hmetric
    have hupdate : (row.id, metric) ∈ results.reduceOption := by
      rw [hsplit]
      simp
    obtain ⟨row', hrow', hid, hrest⟩ := hall _ hupdate
    rw [List.inj_on_of_nodup_map hrows.ids hrow (hmem row' hrow').1 hid]
    exact hrest
  refine ⟨results.reduceOption, ?_, ?_, ?_⟩
  · rw [updateMetrics, hmap, Option.map_some, foldl_updateMetricById hnodup]
  · intro row hrow
    cases hmetric : results.reduceOption.lookup row.id with
    | none =>
      left
      simp only [updatedRow, hmetric]
    | some metric =>
      right
      simp only [updatedRow, hmetric]
      exact hlookup row hrow metric hmetric
  · intro row hrow hansw
    obtain ⟨update, hupdate, hid⟩ := List.mem_map.mp (hanswered row hrow hansw)
    cases hmetric : results.reduceOption.lookup row.id with
    | none =>
      have hnot := List.lookup_eq_none_iff.mp hmetric update hupdate
      rw [hid] at hnot
      simp at hnot
    | some metric =>
      simp only [updatedRow, hmetric]
      exact (hlookup row (hmem row hrow).1 metric hmetric).2.2.2

omit hyears hread in
theorem SoundRows.map {updates : List (ℤ × DownloadMetric)} (hrows : SoundRows rows)
    (hall : ∀ row ∈ rows, updatedRow updates row = row ∨
      lowerBoundDate ≤ (updatedRow updates row).latestDate) :
    SoundRows (rows.map (updatedRow updates)) := by
  constructor
  · have hsame : (rows.map (updatedRow updates)).map (·.id) = rows.map (·.id) := by
      rw [List.map_map]
      apply List.map_congr_left
      intro row _
      simp
    rw [hsame]
    exact hrows.ids
  · intro row' hrow'
    obtain ⟨row, hrow, rfl⟩ := List.mem_map.mp hrow'
    rcases hall row hrow with hsame | hlower
    · rw [hsame]
      exact hrows.lower row hrow
    · exact hlower

/-- A turn whose selected metrics all have counts leaves fewer metrics stale. -/
theorem updateTurn_lowers (hrows : SoundRows rows)
    (hanswered : ∀ row ∈ staleMetrics cal upperBoundDate rows, Answered outcome row)
    {rows' : List QueriedDownloadMetric}
    (hturn : UpdateTurn cal outcome upperBoundDate rows rows') :
    (SoundRows rows' ∧ ∀ row ∈ staleMetrics cal upperBoundDate rows', Answered outcome row) ∧
      (staleMetrics cal upperBoundDate rows').length <
        (staleMetrics cal upperBoundDate rows).length := by
  obtain ⟨metrics, hqueried, hne, hupdate⟩ := hturn
  obtain ⟨updates, heq, hall, hfresh⟩ := updateMetrics_eq hyears hread hrows hqueried
  obtain rfl : rows.map (updatedRow updates) = rows' := Option.some.inj (heq.symm.trans hupdate)
  have hkeeps : ∀ row ∈ rows,
      (updatedRow updates row).latestDate ≤ staleDate cal upperBoundDate →
        updatedRow updates row = row := by
    intro row hrow hstale
    rcases hall row hrow with hsame | ⟨-, -, -, hlt⟩
    · exact hsame
    · omega
  refine ⟨⟨hrows.map fun row hrow => (hall row hrow).imp_right fun h => h.2.2.1, ?_⟩, ?_⟩
  · intro row' hrow'
    obtain ⟨hmem, hstale⟩ := List.mem_filter.mp hrow'
    obtain ⟨row, hrow, rfl⟩ := List.mem_map.mp hmem
    have hsame := hkeeps row hrow (by simpa using hstale)
    rw [hsame] at hstale ⊢
    exact hanswered row (List.mem_filter.mpr ⟨hrow, hstale⟩)
  · -- the rows that are stale after the turn are among those that were, without a selected one
    have hfilter : rows.filter (fun row =>
        (updatedRow updates row).latestDate ≤ staleDate cal upperBoundDate) =
        (staleMetrics cal upperBoundDate rows).filter fun row =>
          (updatedRow updates row).latestDate ≤ staleDate cal upperBoundDate := by
      rw [staleMetrics, List.filter_filter]
      apply List.filter_congr
      intro row hrow
      by_cases hstale : (updatedRow updates row).latestDate ≤ staleDate cal upperBoundDate
      · have hsame := hkeeps row hrow hstale
        rw [hsame] at hstale ⊢
        simp [hstale]
      · simp [hstale]
    rw [staleMetrics, List.filter_map, List.length_map]
    change (rows.filter fun row =>
      (updatedRow updates row).latestDate ≤ staleDate cal upperBoundDate).length < _
    rw [hfilter]
    apply List.length_filter_lt_length_iff_exists.mpr
    obtain ⟨row, hrow⟩ := List.exists_mem_of_ne_nil _ hne
    have hmem := hqueried.stale.subset hrow
    refine ⟨row, hmem, ?_⟩
    have hlt := hfresh row hrow (hanswered row hmem)
    simpa using hlt

/-- While the package of a stale metric fails, there is another turn, and the metric stays
stale. -/
theorem updateTurn_stays (hrows : SoundRows rows) {row : QueriedDownloadMetric}
    (hrow : row ∈ staleMetrics cal upperBoundDate rows) (hfailed : ¬ Answered outcome row) :
    ∃ rows', UpdateTurn cal outcome upperBoundDate rows rows' ∧ SoundRows rows' ∧
      row ∈ staleMetrics cal upperBoundDate rows' := by
  have hqueried : Queried cal upperBoundDate rows
      ((staleMetrics cal upperBoundDate rows).take 128) :=
    ⟨(List.take_sublist _ _).subperm, List.length_take⟩
  have hne : (staleMetrics cal upperBoundDate rows).take 128 ≠ [] := by
    obtain ⟨first, rest, hcons⟩ := List.exists_cons_of_ne_nil (List.ne_nil_of_mem hrow)
    rw [hcons]
    exact List.cons_ne_nil _ _
  obtain ⟨updates, heq, hall, -⟩ := updateMetrics_eq hyears hread hrows hqueried
  obtain ⟨hmem, hstale⟩ := List.mem_filter.mp hrow
  have hsame : updatedRow updates row = row := by
    rcases hall row hmem with hsame | ⟨hansw, -⟩
    · exact hsame
    · exact absurd hansw hfailed
  refine ⟨_, ⟨_, hqueried, hne, heq⟩,
    hrows.map fun r hr => (hall r hr).imp_right fun h => h.2.2.1, ?_⟩
  exact List.mem_filter.mpr ⟨List.mem_map.mpr ⟨row, hmem, hsame⟩, hstale⟩

/-- The update loop ends if and only if the API gives counts for the package of every metric that
is stale at the beginning. -/
theorem updateLoop_ends_iff (hids : (rows.map (·.id)).Nodup)
    (hweeks : ∀ row ∈ rows, ∃ k, row.latestDate = lowerBoundDate + 7 * k) :
    Ends (UpdateTurn cal outcome upperBoundDate) rows ↔
      ∀ row ∈ rows, row.latestDate ≤ staleDate cal upperBoundDate →
        ∃ series, outcome row.packageId = .counts series := by
  have hrows : SoundRows rows := by
    refine ⟨hids, fun row hrow => ?_⟩
    obtain ⟨k, hk⟩ := hweeks row hrow
    omega
  constructor
  · intro hends row hrow hstale
    by_contra hfailed
    refine not_ends_of_progress (I := fun rows => SoundRows rows ∧
      row ∈ staleMetrics cal upperBoundDate rows) ?_ ⟨hrows, ?_⟩ hends
    · rintro rows ⟨hsound, hmem⟩
      exact updateTurn_stays hyears hread hsound hmem hfailed
    · exact List.mem_filter.mpr ⟨hrow, by simpa using hstale⟩
  · intro hall
    apply ends_of_measure (I := fun rows => SoundRows rows ∧
      ∀ row ∈ staleMetrics cal upperBoundDate rows, Answered outcome row)
      fun rows => (staleMetrics cal upperBoundDate rows).length
    · rintro rows rows' ⟨hsound, hanswered⟩ hturn
      exact updateTurn_lowers hyears hread hsound hanswered hturn
    · refine ⟨hrows, fun row hrow => ?_⟩
      obtain ⟨hmem, hstale⟩ := List.mem_filter.mp hrow
      exact hall row hmem (by simpa using hstale)

end Turns

/-- A metric that is three weeks old, of a package that the API no longer knows. -/
theorem updateLoop_endless_unpublished :
    ¬ Ends (UpdateTurn january (fun _ => .doesNotExist) (lowerBoundDate + 20))
      [⟨1, 1, [⟨lowerBoundDate, some 7⟩], lowerBoundDate⟩] := by
  apply not_ends_of_progress (I := fun rows => SoundRows rows ∧
    ⟨1, 1, [⟨lowerBoundDate, some 7⟩], lowerBoundDate⟩ ∈
      staleMetrics january (lowerBoundDate + 20) rows)
  · rintro rows ⟨hsound, hmem⟩
    apply updateTurn_stays january_yearsForward january_readsBack hsound hmem
    rintro ⟨series, hseries⟩
    cases hseries
  · refine ⟨⟨by decide, by decide⟩, ?_⟩
    decide +kernel

theorem updateLoop_ends_counts :
    Ends (UpdateTurn january (fun _ => .counts fun _ => some 1) (lowerBoundDate + 20))
      [⟨1, 1, [⟨lowerBoundDate, some 7⟩], lowerBoundDate⟩, ⟨2, 2, [], lowerBoundDate + 14⟩] := by
  apply (updateLoop_ends_iff january_yearsForward january_readsBack (by decide) ?_).mpr
  · intro row _ _
    exact ⟨_, rfl⟩
  · intro row hrow
    rcases List.mem_pair.mp hrow with rfl | rfl
    · exact ⟨0, rfl⟩
    · exact ⟨2, rfl⟩

end NpmFollower.DownloadMetrics
