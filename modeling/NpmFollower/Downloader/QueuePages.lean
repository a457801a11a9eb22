import NpmFollower.Downloader.DownloadToDest

/-! # Pages of the queue

The pages after a URL do not depend on rows up to it, so rows that are deleted or
marked on the way leave them as they are. Below stand the effects of the
statements on single rows.
-/

namespace NpmFollower.PostgresDb

open Std

/-- Each row stands under its URL. -/
def Keyed (tasks : DownloadTasks) : Prop :=
  ∀ (url : String) (row : DownloadTask), tasks[url]? = some row → row.url = url

/-- The rows meet the constraints of their table. -/
def Checked (numBytesNotNull : Bool) (table : DownloadedTarballs) : Prop :=
  ∀ (url : String) (row : DownloadedTarball),
    table[url]? = some row → row.check numBytesNotNull

section Pages

variable {tasks tasks' : DownloadTasks} {retryFailed : Bool} {lastUrl : String}

theorem url_of_mem_toList (hkeyed : Keyed tasks) {e : String × DownloadTask} (he : e ∈ tasks.toList) :
    e.2.url = e.1 :=
  hkeyed e.1 e.2 (ExtTreeMap.mem_toList_iff_getElem?_eq_some.mp he)

theorem getElem?_of_mem_queuedTasks (hkeyed : Keyed tasks) {t : DownloadTask}
    (ht : t ∈ queuedTasks tasks retryFailed) : tasks[t.url]? = some t := by
  rw [queuedTasks, List.mem_map] at ht
  obtain ⟨e, he, rfl⟩ := ht
  have hmem := (List.mem_filter.mp he).1
  rw [url_of_mem_toList hkeyed hmem]
  exact ExtTreeMap.mem_toList_iff_getElem?_eq_some.mp hmem

theorem ordered_queuedTasks (hkeyed : Keyed tasks) :
    (queuedTasks tasks retryFailed).Pairwise fun t t' => compare t.url t'.url = .lt := by
  rw [queuedTasks, List.pairwise_map]
  apply (ExtTreeMap.ordered_keys_toList.filter _).imp_of_mem
  intro a b ha hb hlt
  rw [url_of_mem_toList hkeyed (List.mem_filter.mp ha).1,
    url_of_mem_toList hkeyed (List.mem_filter.mp hb).1]
  exact hlt

theorem compare_self_ne_lt (url : String) : compare url url ≠ .lt := by
  have hself : compare url url = .eq := ReflCmp.compare_self
  rw [hself]
  decide

theorem nodup_urls_queuedTasks (hkeyed : Keyed tasks) :
    ((queuedTasks tasks retryFailed).map (·.url)).Nodup := by
  rw [List.Nodup, List.pairwise_map]
  apply (ordered_queuedTasks hkeyed).imp
  intro t t' hlt heq
  rw [heq] at hlt
  exact compare_self_ne_lt _ hlt

/-- The rows after a URL, from rows that agree there. -/
theorem queuedAfter_congr
    (h : ∀ url, compare lastUrl url = .lt → tasks'[url]? = tasks[url]?) :
    queuedAfter tasks' lastUrl retryFailed = queuedAfter tasks lastUrl retryFailed := by
  have hsame : (tasks'.toList.filter fun e => compare lastUrl e.1 = .lt) =
      tasks.toList.filter fun e => compare lastUrl e.1 = .lt :=
    FiniteMap.toList_filter_congr (p := fun url => compare lastUrl url = .lt) (by simpa using h)
  rw [queuedAfter, queuedAfter, ← List.filter_filter, ← List.filter_filter, hsame]

theorem queuedAfter_eq_filter (hkeyed : Keyed tasks) :
    queuedAfter tasks lastUrl retryFailed =
      (queuedTasks tasks retryFailed).filter fun t => compare lastUrl t.url = .lt := by
  rw [queuedAfter, queuedTasks, List.filter_map, List.filter_filter]
  congr 1
  apply List.filter_congr
  intro e he
  simp only [Function.comp_apply, url_of_mem_toList hkeyed he]
  exact Bool.and_comm _ _

/-- The rows after the last one of a front are the rest. -/
theorem queuedAfter_front (hkeyed : Keyed tasks) {front rest : List DownloadTask}
    (hsplit : queuedTasks tasks retryFailed = front ++ rest) {last : DownloadTask}
    (hlast : front.getLast? = some last) :
    queuedAfter tasks last.url retryFailed = rest := by
  have hsorted : (queuedTasks tasks retryFailed).Pairwise
      fun t t' => compare t.url t'.url = .lt := ordered_queuedTasks hkeyed
  obtain ⟨init, rfl⟩ := List.getLast?_eq_some_iff.mp hlast
  rw [hsplit, List.append_assoc, List.pairwise_append] at hsorted
  obtain ⟨-, hrest, hinit⟩ := hsorted
  rw [queuedAfter_eq_filter hkeyed, hsplit, List.filter_append]
  have hfront : ((init ++ [last]).filter fun t => compare last.url t.url = .lt) = [] := by
    rw [List.filter_eq_nil_iff]
    intro t ht
    rcases List.mem_append.mp ht with ht | ht
    · have hlt := hinit t ht last List.mem_cons_self
      rw [show compare last.url t.url = (compare t.url last.url).swap from OrientedCmp.eq_swap, hlt]
      decide
    · rw [List.mem_singleton.mp ht]
      simpa using compare_self_ne_lt last.url
  rw [hfront, List.nil_append, List.filter_eq_self]
  intro t ht
  have hlt := (List.pairwise_cons.mp hrest).1 t ht
  simpa using hlt

end Pages

section Effects

variable {b : Bool}

theorem getElem?_deleteTasks (tasks : DownloadTasks) (urls : List String) (url : String) :
    (deleteTasks tasks urls)[url]? = if url ∈ urls then none else tasks[url]? := by
  rw [deleteTasks]
  induction urls generalizing tasks with
  | nil => simp
  | cons u urls ih =>
    rw [List.foldl_cons, ih, FiniteMap.getElem?_erase]
    by_cases hu : u = url
    · subst hu
      simp
    · simp [hu, Ne.symm hu]

/-- The row that the upsert of a tarball leaves. -/
def recorded (old : Option DownloadedTarball) (t : DownloadedTarball) : DownloadedTarball :=
  match old with
  | none => t
  | some old => old.setExcluded t

theorem upsertTarball_ok {table : DownloadedTarballs} (hrows : Checked b table)
    {t : DownloadedTarball} (hcheck : t.check b) (hpath : t.tgzLocalPath.isSome) :
    upsertTarball b table t =
        some (table.insert t.tarballUrl (recorded table[t.tarballUrl]? t)) ∧
      Checked b (table.insert t.tarballUrl (recorded table[t.tarballUrl]? t)) := by
  have hrecorded : (recorded table[t.tarballUrl]? t).check b := by
    cases hold : table[t.tarballUrl]? with
    | none => exact hcheck
    | some old =>
      have hnum := hrows _ _ hold
      simp only [DownloadedTarball.check, Bool.and_eq_true, Bool.or_eq_true] at hnum ⊢
      exact ⟨Or.inl hpath, hnum.2⟩
  constructor
  · rw [upsertTarball, if_pos hcheck]
    cases hold : table[t.tarballUrl]? with
    | none => rfl
    | some old =>
      rw [hold] at hrecorded
      exact if_pos hrecorded
  · intro url row hrow
    rw [FiniteMap.getElem?_insert] at hrow
    split_ifs at hrow with heq
    · cases hrow
      exact hrecorded
    · exact hrows url row hrow

/-- Tarballs with files and distinct URLs are all recorded, and no other row changes. -/
theorem upsertTarballs_ok {table : DownloadedTarballs} (hrows : Checked b table)
    {tarballs : List DownloadedTarball} (hnodup : (tarballs.map (·.tarballUrl)).Nodup)
    (hcheck : ∀ t ∈ tarballs, t.check b ∧ t.tgzLocalPath.isSome) :
    ∃ table', upsertTarballs b table tarballs = some table' ∧ Checked b table' ∧
      (∀ t ∈ tarballs, table'[t.tarballUrl]? = some (recorded table[t.tarballUrl]? t)) ∧
      ∀ url, url ∉ tarballs.map (·.tarballUrl) → table'[url]? = table[url]? := by
  rw [upsertTarballs, if_pos hnodup]
  induction tarballs generalizing table with
  | nil =>
    refine ⟨table, List.foldlM_nil, hrows, ?_, fun _ _ => rfl⟩
    intro t ht
    exact absurd ht List.not_mem_nil
  | cons t tarballs ih =>
    rw [List.map_cons, List.nodup_cons] at hnodup
    have ht := hcheck t List.mem_cons_self
    obtain ⟨hupsert, hmid⟩ := upsertTarball_ok hrows ht.1 ht.2
    obtain ⟨table', hfold, hrows', hall, hrest⟩ :=
      ih hmid hnodup.2 fun t' ht' => hcheck t' (List.mem_cons_of_mem _ ht')
    refine ⟨table', ?_, hrows', ?_, ?_⟩
    · rw [List.foldlM_cons, hupsert]
      exact hfold
    · intro t' ht'
      rcases List.mem_cons.mp ht' with rfl | ht'
      · rw [hrest _ hnodup.1, FiniteMap.getElem?_insert, if_pos rfl]
      · have hne : t.tarballUrl ≠ t'.tarballUrl :=
          fun heq => hnodup.1 (heq ▸ List.mem_map_of_mem ht')
        rw [hall t' ht', FiniteMap.getElem?_insert_of_ne _ _ hne]
    · intro url hurl
      simp only [List.map_cons, List.mem_cons, not_or] at hurl
      rw [hrest url hurl.2, FiniteMap.getElem?_insert_of_ne _ _ (Ne.symm hurl.1)]

/-- The row of a task whose download has failed. -/
def DownloadTask.withFailure (task : DownloadTask) (now : DateTime) (e : DownloadFailed) :
    DownloadTask :=
  { task with failed := some e, lastFailure := some now, numFailures := task.numFailures + 1 }

theorem updateFromError_eq {tasks : DownloadTasks} {task : DownloadTask} {now : DateTime}
    {e : DownloadFailed} (hrow : tasks[task.url]? = some task) :
    updateFromError now tasks task e =
      if task.numFailures + 1 < 2 ^ 31 then some (tasks.insert task.url (task.withFailure now e))
      else none := by
  rw [updateFromError, hrow]
  rfl

end Effects

end NpmFollower.PostgresDb
