import NpmFollower.Downloader.QueuePages

/-! # Every task is dispatched once

While tasks are left to dispatch, the downloads that are outstanding and those
counted since the last chunk make up at least one chunk. So the loop asks for the
next chunk before it runs dry, and as many messages come as there are tasks.
-/

namespace NpmFollower.Downloader

open Std PostgresDb

/-- The tarball of a task whose download succeeds. -/
def Download.tarball? (download : Download) (task : DownloadTask) : Option DownloadedTarball :=
  match download task with
  | .ok file => some (.fromTask file.downloadedAt task file.localPath file.numBytes)
  | .error _ => none

/-- The failure of the task can be counted: `num_failures` is an `INTEGER`. -/
def Download.Counts (download : Download) (task : DownloadTask) : Prop :=
  ∀ e, download task = .error e → task.numFailures + 1 < 2 ^ 31

section Tarballs

variable {download : Download} {b : Bool}

theorem tarball?_url {task : DownloadTask} {t : DownloadedTarball}
    (h : download.tarball? task = some t) : t.tarballUrl = task.url := by
  rw [Download.tarball?] at h
  split at h
  · cases h
    rfl
  · cases h

theorem tarball?_checked {task : DownloadTask} {t : DownloadedTarball}
    (h : download.tarball? task = some t) : t.check b ∧ t.tgzLocalPath.isSome := by
  rw [Download.tarball?] at h
  split at h
  · cases h
    cases b <;> exact ⟨rfl, rfl⟩
  · cases h

/-- The tarballs of tasks with distinct URLs have distinct URLs. -/
theorem nodup_tarballUrls {tasks : List DownloadTask} (h : (tasks.map (·.url)).Nodup) :
    ((tasks.filterMap download.tarball?).map (·.tarballUrl)).Nodup := by
  have hsub : ((tasks.filterMap download.tarball?).map (·.tarballUrl)).Sublist
      (tasks.map (·.url)) := by
    clear h
    induction tasks with
    | nil => exact List.Sublist.slnil
    | cons task tasks ih =>
      cases ht : download.tarball? task with
      | none =>
        rw [List.filterMap_cons_none ht]
        exact ih.cons _
      | some t =>
        rw [List.filterMap_cons_some ht, List.map_cons, tarball?_url ht]
        exact ih.cons_cons _
  exact h.sublist hsub

end Tarballs

namespace DestState

variable {chunkSize : ℕ} {b retryFailed : Bool} {download : Download} {tables : Tables}
  {queued : List DownloadTask} {s s' : DestState} {flushed : List DownloadedTarball}

/-- The tables, where the tarballs of `flushed` have been recorded. -/
structure Recorded (b : Bool) (download : Download) (tables : Tables) (s : DestState)
    (flushed : List DownloadedTarball) : Prop where
  checked : Checked b s.tables.tarballs
  successes : s.received.filterMap download.tarball? = flushed ++ s.tarballsQueue
  removed : ∀ t ∈ flushed, s.tables.tasks[t.tarballUrl]? = none
  recorded : ∀ t ∈ flushed, s.tables.tarballs[t.tarballUrl]? =
    some (recorded tables.tarballs[t.tarballUrl]? t)
  unrecorded : ∀ url, url ∉ flushed.map (·.tarballUrl) →
    s.tables.tarballs[url]? = tables.tarballs[url]?
  untouched : ∀ url, url ∉ s.received.map (·.url) → s.tables.tasks[url]? = tables.tasks[url]?
  failed : ∀ task ∈ s.received, ∀ e, download task = .error e →
    task.numFailures + 1 < 2 ^ 31 ∧
      ∃ now, s.tables.tasks[task.url]? = some (task.withFailure now e)

/-- The tasks on their way, of those that were queued. While some are not dispatched, at least
`room` more downloads can be counted before the next chunk is full. -/
structure Paced (chunkSize room : ℕ) (queued : List DownloadTask) (s : DestState) : Prop where
  front : s.dispatched <+: queued
  last : s.dispatched.getLast?.map (·.url) = some s.lastUrl
  perm : (s.outstanding ++ s.received).Perm s.dispatched
  pace : s.dispatched = queued ∨ (s.lastChunkSize = chunkSize ∧
    s.downloadCounter + room ≤ chunkSize ∧ chunkSize ≤ s.outstanding.length + s.downloadCounter)

theorem Paced.nodup_urls {room : ℕ} (h : Paced chunkSize room queued s)
    (hqueued : (queued.map (·.url)).Nodup) :
    ((s.outstanding ++ s.received).map (·.url)).Nodup :=
  (h.perm.map _).nodup_iff.mpr (hqueued.sublist (h.front.sublist.map _))

/-- Recording the queue leaves no more than the tables changed. -/
theorem Recorded.flush (h : Recorded b download tables s flushed)
    (hnodup : (s.received.map (·.url)).Nodup) :
    ∃ tables', s.updateFromTarballQueue b =
        .ok { s with tables := tables', tarballsQueue := [] } ∧
      Recorded b download tables { s with tables := tables', tarballsQueue := [] }
        (flushed ++ s.tarballsQueue) := by
  have hurls : ((s.received.filterMap download.tarball?).map (·.tarballUrl)).Nodup :=
    nodup_tarballUrls hnodup
  rw [h.successes, List.map_append, List.nodup_append] at hurls
  obtain ⟨-, hqueue, hdisjoint⟩ := hurls
  have hmem : ∀ t ∈ s.tarballsQueue, ∃ task ∈ s.received, download.tarball? task = some t := by
    intro t ht
    have hsuccess : t ∈ s.received.filterMap download.tarball? := by
      rw [h.successes]
      exact List.mem_append_right _ ht
    exact List.mem_filterMap.mp hsuccess
  by_cases hnil : s.tarballsQueue = []
  · refine ⟨s.tables, ?_, ?_⟩
    · rw [updateFromTarballQueue, if_pos hnil]
      obtain ⟨_, _, _, _, _, _, _, _⟩ := s
      simp only at hnil
      rw [hnil]
    · rw [hnil, List.append_nil]
      exact { h with successes := by rw [h.successes, hnil] }
  · obtain ⟨table', hupsert, hchecked, hall, hrest⟩ := upsertTarballs_ok h.checked hqueue (by
      intro t ht
      obtain ⟨task, -, htask⟩ := hmem t ht
      exact tarball?_checked htask)
    refine ⟨⟨deleteTasks s.tables.tasks (s.tarballsQueue.map (·.tarballUrl)), table'⟩, ?_, ?_⟩
    · rw [updateFromTarballQueue, if_neg hnil, updateFromTarballs, hupsert]
      rfl
    · constructor
      · exact hchecked
      · simp only [h.successes, List.append_nil]
      · intro t ht
        simp only [getElem?_deleteTasks]
        split_ifs with hin
        · rfl
        · rcases List.mem_append.mp ht with ht | ht
          · exact h.removed t ht
          · exact absurd (List.mem_map_of_mem ht) hin
      · intro t ht
        rcases List.mem_append.mp ht with ht | ht
        · have hout : t.tarballUrl ∉ s.tarballsQueue.map (·.tarballUrl) :=
            fun hin => hdisjoint _ (List.mem_map_of_mem ht) _ hin rfl
          exact (hrest _ hout).trans (h.recorded t ht)
        · have hout : t.tarballUrl ∉ flushed.map (·.tarballUrl) :=
            fun hin => hdisjoint _ hin _ (List.mem_map_of_mem ht) rfl
          rw [hall t ht, h.unrecorded _ hout]
      · intro url hurl
        rw [List.map_append, List.mem_append, not_or] at hurl
        exact (hrest url hurl.2).trans (h.unrecorded url hurl.1)
      · intro url hurl
        simp only [getElem?_deleteTasks]
        split_ifs with hin
        · obtain ⟨t, ht, rfl⟩ := List.mem_map.mp hin
          obtain ⟨task, htask, hsome⟩ := hmem t ht
          rw [tarball?_url hsome] at hurl
          exact absurd (List.mem_map_of_mem htask) hurl
        · exact h.untouched url hurl
      · intro task htask e he
        obtain ⟨hcount, now, hrow⟩ := h.failed task htask e he
        refine ⟨hcount, now, ?_⟩
        simp only [getElem?_deleteTasks]
        rw [if_neg, hrow]
        intro hin
        -- two received tasks with one URL are the same task, and its download failed
        obtain ⟨t, ht, hurl⟩ := List.mem_map.mp hin
        obtain ⟨task', htask', hsome⟩ := hmem t ht
        rw [tarball?_url hsome] at hurl
        have hsame := List.inj_on_of_nodup_map hnodup htask' htask hurl
        rw [hsame, Download.tarball?, he] at hsome
        cases hsome

theorem Recorded.url_mem_of_flushed (h : Recorded b download tables s flushed)
    {t : DownloadedTarball} (ht : t ∈ flushed) : t.tarballUrl ∈ s.received.map (·.url) := by
  have hsuccess : t ∈ s.received.filterMap download.tarball? := by
    rw [h.successes]
    exact List.mem_append_left _ ht
  obtain ⟨task, htask, hsome⟩ := List.mem_filterMap.mp hsuccess
  rw [tarball?_url hsome]
  exact List.mem_map_of_mem htask

theorem Recorded.downloadChunk (h : Recorded b download tables s flushed)
    (chunk : List DownloadTask) : Recorded b download tables (s.downloadChunk chunk) flushed :=
  ⟨h.checked, h.successes, h.removed, h.recorded, h.unrecorded, h.untouched, h.failed⟩

/-- The next page brings the pool at least one more chunk, or the last tasks. -/
theorem Paced.downloadChunk {room : ℕ} (h : Paced chunkSize room queued s) (hchunk : 2 ≤ chunkSize)
    {rest : List DownloadTask} (hrest : s.dispatched ++ rest = queued) :
    Paced chunkSize 2 queued (s.downloadChunk (rest.take chunkSize)) := by
  constructor
  · rw [← hrest]
    exact List.prefix_append_right_inj _ |>.mpr (List.take_prefix _ _)
  · cases hlast : (rest.take chunkSize).getLast? with
    | none =>
      have hnil := List.getLast?_eq_none_iff.mp hlast
      simp only [DestState.downloadChunk, hnil, List.append_nil]
      exact h.last
    | some last => simp [DestState.downloadChunk, List.getLast?_append, hlast]
  · have hperm := h.perm.append_right (rest.take chunkSize)
    refine List.Perm.trans ?_ hperm
    simp only [DestState.downloadChunk, List.append_assoc]
    exact List.perm_append_comm.append_left _
  · by_cases hall : rest.length ≤ chunkSize
    · left
      simp only [DestState.downloadChunk, List.take_of_length_le hall, hrest]
    · right
      simp only [DestState.downloadChunk, List.length_take, List.length_append]
      omega

section Refill

variable (hkeyed : Keyed tables.tasks)

include hkeyed

/-- The rows after the last chunk are the tasks that are not dispatched. -/
theorem queuedAfter_lastUrl {room : ℕ} (h : Recorded b download tables s flushed)
    (hpaced : Paced chunkSize room (queuedTasks tables.tasks retryFailed) s)
    {rest : List DownloadTask} (hrest : queuedTasks tables.tasks retryFailed = s.dispatched ++ rest) :
    queuedAfter s.tables.tasks s.lastUrl retryFailed = rest := by
  obtain ⟨last, hlast, hurl⟩ := Option.map_eq_some_iff.mp hpaced.last
  have hafter := queuedAfter_front hkeyed hrest hlast
  rw [hurl] at hafter
  rw [← hafter]
  apply queuedAfter_congr
  intro url hlt
  apply h.untouched
  intro hreceived
  obtain ⟨task, htask, rfl⟩ := List.mem_map.mp hreceived
  have hdispatched : task ∈ s.dispatched := hpaced.perm.subset (List.mem_append_right _ htask)
  have hin : task ∈ rest := by
    rw [← hafter, queuedAfter_eq_filter hkeyed, List.mem_filter]
    exact ⟨hpaced.front.subset hdispatched, by simpa using hlt⟩
  have hnodup : (queuedTasks tables.tasks retryFailed).Nodup :=
    (nodup_urls_queuedTasks hkeyed).of_map
  rw [hrest, List.nodup_append] at hnodup
  exact hnodup.2.2 task hdispatched task hin rfl

theorem refill_ok (hchunk : 2 ≤ chunkSize) (h : Recorded b download tables s flushed)
    (hpaced : Paced chunkSize 1 (queuedTasks tables.tasks retryFailed) s) :
    ∃ s' flushed', s.refill chunkSize b retryFailed = .ok s' ∧
      Recorded b download tables s' flushed' ∧
      Paced chunkSize 2 (queuedTasks tables.tasks retryFailed) s' ∧
      s'.received = s.received := by
  by_cases hfull : s.downloadCounter + 1 = s.lastChunkSize
  · have hnodup := hpaced.nodup_urls (nodup_urls_queuedTasks hkeyed)
    rw [List.map_append, List.nodup_append] at hnodup
    obtain ⟨tables', hflush, hrecorded⟩ := h.flush hnodup.2.1
    obtain ⟨rest, hrest⟩ := hpaced.front
    have hpaced' : Paced chunkSize 1 (queuedTasks tables.tasks retryFailed)
        { s with tables := tables', tarballsQueue := [] } :=
      ⟨hpaced.front, hpaced.last, hpaced.perm, hpaced.pace⟩
    have hpage : queuedAfter tables'.tasks s.lastUrl retryFailed = rest :=
      queuedAfter_lastUrl hkeyed hrecorded hpaced' hrest.symm
    refine ⟨_, _, ?_, hrecorded.downloadChunk (rest.take chunkSize),
      hpaced'.downloadChunk hchunk hrest, rfl⟩
    rw [refill, if_pos hfull, hflush, ← hpage]
    rfl
  · refine ⟨s, flushed, if_neg hfull, h, ⟨hpaced.front, hpaced.last, hpaced.perm, ?_⟩, rfl⟩
    rcases hpaced.pace with hall | ⟨hsize, hroom, hout⟩
    · exact Or.inl hall
    · right
      omega

end Refill

section Receive

variable (hkeyed : Keyed tables.tasks)

/-- The state when the message of a task has come. -/
def withReceived (s : DestState) (i : ℕ) (task : DownloadTask) : DestState :=
  { s with
    outstanding := s.outstanding.eraseIdx i
    received := s.received ++ [task]
    downloadCounter := s.downloadCounter + 1 }

/-- While messages are missing, a download is outstanding. -/
theorem Paced.outstanding_pos (h : Paced chunkSize 2 queued s)
    (hmore : s.received.length < queued.length) : 0 < s.outstanding.length := by
  have hlength := h.perm.length_eq
  rw [List.length_append] at hlength
  rcases h.pace with hall | ⟨-, hroom, hout⟩
  · rw [hall] at hlength
    omega
  · omega

theorem Paced.withReceived (h : Paced chunkSize 2 queued s) {i : ℕ} (hi : i < s.outstanding.length) :
    Paced chunkSize 1 queued (s.withReceived i s.outstanding[i]) := by
  refine ⟨h.front, h.last, ?_, ?_⟩
  · have hperm := (List.getElem_cons_eraseIdx_perm hi).append_right s.received
    refine List.Perm.trans ?_ (hperm.trans h.perm)
    simp only [DestState.withReceived, ← List.append_assoc]
    exact List.perm_append_singleton _ _
  · rcases h.pace with hall | ⟨hsize, hroom, hout⟩
    · exact Or.inl hall
    · right
      simp only [DestState.withReceived, List.length_eraseIdx_of_lt hi]
      omega

variable {task : DownloadTask} {i : ℕ}

theorem Recorded.withTarball (h : Recorded b download tables s flushed)
    {file : DownloadedFile} (hfile : download task = .ok file) :
    Recorded b download tables (DestState.withReceived
      { s with tarballsQueue := s.tarballsQueue ++
        [.fromTask file.downloadedAt task file.localPath file.numBytes] } i task) flushed := by
  constructor
  · exact h.checked
  · simp only [DestState.withReceived, List.filterMap_append, h.successes, List.append_assoc]
    simp [Download.tarball?, hfile]
  · exact h.removed
  · exact h.recorded
  · exact h.unrecorded
  · intro url hurl
    simp only [DestState.withReceived, List.map_append, List.mem_append, not_or] at hurl
    exact h.untouched url hurl.1
  · intro task' htask' e he
    rcases List.mem_append.mp htask' with htask' | htask'
    · exact h.failed task' htask' e he
    · rw [List.mem_singleton.mp htask', hfile] at he
      cases he

theorem Recorded.withError (h : Recorded b download tables s flushed) (now : DateTime)
    {e : DownloadFailed} (herror : download task = .error e)
    (hcount : task.numFailures + 1 < 2 ^ 31) (hnew : task.url ∉ s.received.map (·.url)) :
    Recorded b download tables (DestState.withReceived
      { s with tables := { s.tables with
        tasks := s.tables.tasks.insert task.url (task.withFailure now e) } } i task) flushed := by
  constructor
  · exact h.checked
  · simp only [DestState.withReceived, List.filterMap_append, h.successes]
    simp [Download.tarball?, herror]
  · intro t ht
    have hne : task.url ≠ t.tarballUrl := fun heq => hnew (heq ▸ h.url_mem_of_flushed ht)
    exact (FiniteMap.getElem?_insert_of_ne _ _ hne).trans (h.removed t ht)
  · exact h.recorded
  · exact h.unrecorded
  · intro url hurl
    simp only [DestState.withReceived, List.map_append, List.mem_append, not_or, List.map_cons,
      List.map_nil, List.mem_singleton] at hurl
    exact (FiniteMap.getElem?_insert_of_ne _ _ (Ne.symm hurl.2)).trans (h.untouched url hurl.1)
  · intro task' htask' e' he'
    rcases List.mem_append.mp htask' with htask' | htask'
    · obtain ⟨hcount', now', hrow⟩ := h.failed task' htask' e' he'
      have hne : task.url ≠ task'.url := fun heq => hnew (heq ▸ List.mem_map_of_mem htask')
      exact ⟨hcount', now', (FiniteMap.getElem?_insert_of_ne _ _ hne).trans hrow⟩
    · rw [List.mem_singleton.mp htask'] at he' ⊢
      rw [herror] at he'
      cases he'
      exact ⟨hcount, now, by simp [DestState.withReceived, FiniteMap.getElem?_insert]⟩

include hkeyed

/-- A message comes, and only a failure that cannot be counted stops the loop. -/
theorem receive_ok (h : Recorded b download tables s flushed)
    (hpaced : Paced chunkSize 2 (queuedTasks tables.tasks retryFailed) s)
    (hmore : s.received.length < (queuedTasks tables.tasks retryFailed).length) (pick : ℕ)
    (now : DateTime) :
    (∃ s', s.receive download pick now = .ok s' ∧ Recorded b download tables s' flushed ∧
        Paced chunkSize 1 (queuedTasks tables.tasks retryFailed) s' ∧
        s'.received.length = s.received.length + 1) ∨
      s.receive download pick now = .error .updateTask ∧
        ∃ task ∈ queuedTasks tables.tasks retryFailed, ¬ download.Counts task := by
  have hi : pick % s.outstanding.length < s.outstanding.length :=
    Nat.mod_lt _ (hpaced.outstanding_pos hmore)
  have hget := List.getElem?_eq_getElem hi
  obtain ⟨task, htask⟩ : ∃ task, task = s.outstanding[pick % s.outstanding.length] := ⟨_, rfl⟩
  have hpaced' := hpaced.withReceived hi
  rw [← htask] at hget hpaced'
  have hout : task ∈ s.outstanding := htask ▸ List.getElem_mem hi
  have hqueued : task ∈ queuedTasks tables.tasks retryFailed :=
    hpaced.front.subset (hpaced.perm.subset (List.mem_append_left _ hout))
  have hnew : task.url ∉ s.received.map (·.url) := by
    have hnodup := hpaced.nodup_urls (nodup_urls_queuedTasks hkeyed)
    rw [List.map_append, List.nodup_append] at hnodup
    exact fun hin => hnodup.2.2 _ (List.mem_map_of_mem hout) _ hin rfl
  have hlength : (s.received ++ [task]).length = s.received.length + 1 := by simp
  cases hdownload : download task with
  | ok file =>
    left
    refine ⟨_, ?_, h.withTarball hdownload, ⟨hpaced'.front, hpaced'.last, hpaced'.perm,
      hpaced'.pace⟩, hlength⟩
    simp only [receive, hget, Download.message, hdownload, handle, bind, Except.bind, pure,
      Except.pure]
    rfl
  | error e =>
    have hrow : s.tables.tasks[task.url]? = some task := by
      rw [h.untouched _ hnew]
      exact getElem?_of_mem_queuedTasks hkeyed hqueued
    have hupdate : updateFromError now s.tables.tasks task e = _ := updateFromError_eq hrow
    by_cases hcount : task.numFailures + 1 < 2 ^ 31
    · rw [if_pos hcount] at hupdate
      left
      refine ⟨_, ?_, h.withError now hdownload hcount hnew, ⟨hpaced'.front, hpaced'.last, hpaced'.perm,
        hpaced'.pace⟩, hlength⟩
      simp only [receive, hget, Download.message, hdownload, handle, hupdate, bind, Except.bind,
        pure, Except.pure]
      rfl
    · rw [if_neg hcount] at hupdate
      right
      refine ⟨?_, task, hqueued, fun hcounts => hcount (hcounts e hdownload)⟩
      simp only [receive, hget, Download.message, hdownload, handle, hupdate, bind, Except.bind]

end Receive

/-- Every task was dispatched once and its message received; the successes stand in
`downloaded_tarballs` and no longer in `download_tasks`. -/
structure Finished (tables : Tables) (retryFailed : Bool) (download : Download) (s : DestState) :
    Prop where
  dispatched : s.dispatched = queuedTasks tables.tasks retryFailed
  received : s.received.Perm (queuedTasks tables.tasks retryFailed)
  outstanding : s.outstanding = []
  recorded : ∀ task ∈ queuedTasks tables.tasks retryFailed, ∀ t, download.tarball? task = some t →
    s.tables.tarballs[task.url]? = some (recorded tables.tarballs[task.url]? t)
  removed : ∀ task ∈ queuedTasks tables.tasks retryFailed, ∀ t, download.tarball? task = some t →
    s.tables.tasks[task.url]? = none

end DestState

section Run

open DestState

variable {chunkSize : ℕ} {b retryFailed : Bool} {download : Download} {pick : ℕ → ℕ}
  {now : ℕ → DateTime} {tables : Tables} {s : DestState}

/-- As many turns as there are tasks, or a failure that cannot be counted. -/
theorem destTurns_ok (pick : ℕ → ℕ) (now : ℕ → DateTime) (hchunk : 2 ≤ chunkSize) (hkeyed : Keyed tables.tasks)
    {flushed : List DownloadedTarball} (h : Recorded b download tables s flushed)
    (hpaced : Paced chunkSize 1 (queuedTasks tables.tasks retryFailed) s) (hstart : s.received = [])
    {n : ℕ} (hn : n ≤ (queuedTasks tables.tasks retryFailed).length) :
    (∃ s' flushed', destTurns chunkSize b retryFailed download pick now s n = .ok s' ∧
        Recorded b download tables s' flushed' ∧
        Paced chunkSize 1 (queuedTasks tables.tasks retryFailed) s' ∧ s'.received.length = n) ∨
      destTurns chunkSize b retryFailed download pick now s n = .error .updateTask ∧
        ∃ task ∈ queuedTasks tables.tasks retryFailed, ¬ download.Counts task := by
  induction n with
  | zero => exact Or.inl ⟨s, flushed, rfl, h, hpaced, by rw [hstart]; rfl⟩
  | succ n ih =>
    rcases ih (by omega) with ⟨s₁, flushed₁, hturns, h₁, hpaced₁, hlength⟩ | ⟨herror, hbad⟩
    · obtain ⟨s₂, flushed₂, hrefill, h₂, hpaced₂, hsame⟩ := refill_ok hkeyed hchunk h₁ hpaced₁
      rcases receive_ok hkeyed h₂ hpaced₂ (by rw [hsame]; omega) (pick n) (now n) with
        ⟨s₃, hreceive, h₃, hpaced₃, hmore⟩ | ⟨herror, hbad⟩
      · left
        refine ⟨s₃, flushed₂, ?_, h₃, hpaced₃, by rw [hmore, hsame, hlength]⟩
        simp only [destTurns, hturns, hrefill, hreceive, bind, Except.bind]
      · right
        refine ⟨?_, hbad⟩
        simp only [destTurns, hturns, hrefill, herror, bind, Except.bind]
    · right
      refine ⟨?_, hbad⟩
      simp only [destTurns, herror, bind, Except.bind]

/-- The last flush, once all messages have come. -/
theorem finished_of_flush {flushed : List DownloadedTarball}
    (hkeyed : Keyed tables.tasks) (h : Recorded b download tables s flushed)
    (hpaced : Paced chunkSize 1 (queuedTasks tables.tasks retryFailed) s)
    (hall : s.received.length = (queuedTasks tables.tasks retryFailed).length) :
    ∃ s', s.updateFromTarballQueue b = .ok s' ∧ Finished tables retryFailed download s' ∧
      ∀ task ∈ queuedTasks tables.tasks retryFailed, download.Counts task := by
  have hlength := hpaced.perm.length_eq
  rw [List.length_append, hall] at hlength
  have hle := hpaced.front.length_le
  have hdispatched := hpaced.front.eq_of_length (by omega)
  have hout : s.outstanding = [] := List.eq_nil_of_length_eq_zero (by omega)
  have hperm := hpaced.perm
  rw [hout, List.nil_append, hdispatched] at hperm
  have hnodup := hpaced.nodup_urls (nodup_urls_queuedTasks hkeyed)
  rw [hout, List.nil_append] at hnodup
  obtain ⟨tables', hflush, h'⟩ := h.flush hnodup
  have hsuccess : ∀ task ∈ queuedTasks tables.tasks retryFailed, ∀ t,
      download.tarball? task = some t → t ∈ flushed ++ s.tarballsQueue := by
    intro task htask t ht
    rw [← h.successes, List.mem_filterMap]
    exact ⟨task, hperm.mem_iff.mpr htask, ht⟩
  refine ⟨_, hflush, ⟨hdispatched, hperm, hout, ?_, ?_⟩, ?_⟩
  · intro task htask t ht
    rw [← tarball?_url ht]
    exact h'.recorded t (hsuccess task htask t ht)
  · intro task htask t ht
    rw [← tarball?_url ht]
    exact h'.removed t (hsuccess task htask t ht)
  · intro task htask e he
    exact (h.failed task (hperm.mem_iff.mpr htask) e he).1

theorem recorded_start (download : Download) (hchecked : Checked b tables.tarballs)
    (chunk : List DownloadTask) :
    Recorded b download tables ((DestState.idle tables).downloadChunk chunk) [] := by
  refine ⟨hchecked, rfl, ?_, ?_, fun _ _ => rfl, fun _ _ => rfl, ?_⟩
  · exact fun t ht => absurd ht List.not_mem_nil
  · exact fun t ht => absurd ht List.not_mem_nil
  · exact fun t ht => absurd ht List.not_mem_nil

theorem paced_start (hchunk : 2 ≤ chunkSize) {queued : List DownloadTask}
    (hne : queued.take chunkSize ≠ []) :
    Paced chunkSize 1 queued ((DestState.idle tables).downloadChunk (queued.take chunkSize)) := by
  refine ⟨List.take_prefix _ _, ?_, ?_, ?_⟩
  · obtain ⟨last, hlast⟩ := Option.isSome_iff_exists.mp (List.getLast?_isSome.mpr hne)
    simp [DestState.downloadChunk, DestState.idle, hlast]
  · simp [DestState.downloadChunk, DestState.idle]
  · by_cases hall : queued.length ≤ chunkSize
    · left
      simp [DestState.downloadChunk, DestState.idle, List.take_of_length_le hall]
    · right
      simp only [DestState.downloadChunk, DestState.idle, List.length_take, List.nil_append]
      omega

/-- A queue with one task, which has failed before. -/
def failedTables (numFailures : ℤ) : Tables :=
  ⟨(∅ : DownloadTasks).insert "a"
    ⟨"a", none, none, none, none, none, none, none, 0, numFailures, some 0, some .io⟩, ∅⟩

theorem keyed_failedTables (numFailures : ℤ) : Keyed (failedTables numFailures).tasks := by
  intro url row hrow
  rw [failedTables, FiniteMap.getElem?_insert] at hrow
  split_ifs at hrow with heq
  · cases hrow
    exact heq
  · simp at hrow

theorem checked_failedTables (numFailures : ℤ) :
    Checked true (failedTables numFailures).tarballs := by
  intro url row hrow
  simp [failedTables] at hrow

end Run

end NpmFollower.Downloader
