import NpmFollower.Downloader.Pipeline

/-! # No URL leaves the pipeline

The two tables hand URLs over: a task is deleted only when its URL stands among
the downloaded tarballs. What a process has seen of the tables stays true for it,
so an enqueued URL is in one of the two tables from then on.
-/

namespace NpmFollower.PostgresDb

open Std

theorem url_mem_of_not_mem_filterDownloaded {tarballs : DownloadedTarballs}
    {chunk : List DownloadTask} {t : DownloadTask} (ht : t ∈ chunk)
    (hnot : t ∉ filterDownloaded tarballs chunk) : t.url ∈ tarballs := by
  have hurl : t.url ∈ getDownloadedUrlsMatchingTasks tarballs chunk := by
    simpa [filterDownloaded, ht] using hnot
  exact ExtTreeMap.mem_keys.mp (List.mem_filter.mp hurl).1

theorem mem_insertTask (tasks : DownloadTasks × ℕ) (t : DownloadTask) (url : String) :
    url ∈ (insertTask tasks t).1 ↔ t.url = url ∨ url ∈ tasks.1 := by
  rw [insertTask]
  split_ifs with h
  · constructor
    · exact .inr
    · rintro (rfl | h')
      · exact h
      · exact h'
  · exact FiniteMap.mem_insert

theorem mem_foldl_insertTask (chunk : List DownloadTask) (tasks : DownloadTasks × ℕ)
    (url : String) :
    url ∈ (chunk.foldl insertTask tasks).1 ↔ (∃ t ∈ chunk, t.url = url) ∨ url ∈ tasks.1 := by
  induction chunk generalizing tasks with
  | nil => simp
  | cons t chunk ih =>
    rw [List.foldl_cons, ih, mem_insertTask]
    simp only [List.mem_cons, exists_eq_or_imp]
    exact or_left_comm.trans or_assoc.symm

theorem mem_insertTasks {tasks tasks' : DownloadTasks} {chunk : List DownloadTask} {n : ℕ}
    (h : insertTasks tasks chunk = some (tasks', n)) (url : String) :
    url ∈ tasks' ↔ (∃ t ∈ chunk, t.url = url) ∨ url ∈ tasks := by
  rw [insertTasks] at h
  split_ifs at h
  have hfold := Option.some.inj h
  have hmem := mem_foldl_insertTask chunk (tasks, 0) url
  rwa [hfold] at hmem

theorem mem_upsertTarball {b : Bool} {table table' : DownloadedTarballs} {t : DownloadedTarball}
    (h : upsertTarball b table t = some table') (url : String) :
    url ∈ table' ↔ t.tarballUrl = url ∨ url ∈ table := by
  have hmem (row : DownloadedTarball) :
      url ∈ table.insert t.tarballUrl row ↔ t.tarballUrl = url ∨ url ∈ table :=
    FiniteMap.mem_insert
  rw [upsertTarball] at h
  split_ifs at h
  split at h
  · cases h
    exact hmem t
  · split_ifs at h
    cases h
    exact hmem _

theorem mem_upsertTarballs {b : Bool} {table table' : DownloadedTarballs}
    {tarballs : List DownloadedTarball} (h : upsertTarballs b table tarballs = some table')
    (url : String) : url ∈ table' ↔ (∃ t ∈ tarballs, t.tarballUrl = url) ∨ url ∈ table := by
  rw [upsertTarballs] at h
  split_ifs at h
  clear * - h
  induction tarballs generalizing table with
  | nil =>
    cases h
    simp
  | cons t tarballs ih =>
    rw [List.foldlM_cons] at h
    obtain ⟨mid, hmid, hrest⟩ := Option.bind_eq_some_iff.mp h
    rw [ih hrest, mem_upsertTarball hmid]
    simp only [List.mem_cons, exists_eq_or_imp]
    exact or_left_comm.trans or_assoc.symm

theorem mem_deleteTasks (tasks : DownloadTasks) (urls : List String) (url : String) :
    url ∈ deleteTasks tasks urls ↔ url ∈ tasks ∧ url ∉ urls := by
  rw [deleteTasks]
  induction urls generalizing tasks with
  | nil => simp
  | cons u urls ih =>
    rw [List.foldl_cons, ih, ExtTreeMap.mem_erase, ne_eq, LawfulEqCmp.compare_eq_iff_eq]
    simp only [List.mem_cons, not_or]
    tauto

theorem mem_updateFromError {now : DateTime} {tasks tasks' : DownloadTasks} {task : DownloadTask}
    {e : DownloadFailed} (h : updateFromError now tasks task e = some tasks') (url : String) :
    url ∈ tasks' ↔ url ∈ tasks := by
  rw [updateFromError] at h
  split at h
  · cases h
    rfl
  next row hrow =>
    split_ifs at h
    cases h
    rw [FiniteMap.mem_insert, or_iff_right_of_imp]
    rintro rfl
    exact FiniteMap.mem_iff_getElem?.mpr ⟨row, hrow⟩

theorem mem_setBlobStorageKey (table : DownloadedTarballs) (tbUrl blobKey url : String) :
    url ∈ setBlobStorageKey table tbUrl blobKey ↔ url ∈ table := by
  simp only [ExtTreeMap.mem_iff_isSome_getElem?, getElem?_setBlobStorageKey, Option.isSome_map]

end NpmFollower.PostgresDb

namespace NpmFollower.Downloader

open Std PostgresDb Handover

namespace Pipeline

variable {b : Bool} {s s' : Pipeline}

/-- The tables as the places of a URL. -/
def places (s : Pipeline) : Places String := ⟨{url | url ∈ s.tasks}, {url | url ∈ s.tarballs}⟩

/-- The URL is in one of the tables. -/
def Holds (s : Pipeline) (url : String) : Prop := url ∈ s.tasks ∨ url ∈ s.tarballs

end Pipeline

/-- What a process knows of the tables between its statements. -/
def Process.Knows (s : Pipeline) : Process → Prop
  | .insert chunk rest => ∀ t ∈ chunk, t ∉ rest → t.url ∈ s.tarballs
  | .enqueued chunk _ => ∀ t ∈ chunk, s.Holds t.url
  | .delete _ _ urls => ∀ url ∈ urls, url ∈ s.tarballs
  | _ => True

namespace Pipeline

variable {b : Bool} {s s' : Pipeline}

theorem knows_mono {p : Process} (hsteps : Steps s.places s'.places) (h : p.Knows s) :
    p.Knows s' := by
  cases p with
  | insert chunk rest => exact fun t ht hnot => hsteps.done_subset (h t ht hnot)
  | enqueued chunk n => exact fun t ht => hsteps.covered_subset (h t ht)
  | delete retryFailed d urls => exact fun url hurl => hsteps.done_subset (h url hurl)
  | enqueue => trivial
  | download => trivial
  | transfer => trivial

/-- What a step does: it hands URLs over, leaves the other processes alone, and the process that
took it knows what it did. -/
structure Sound (s : Pipeline) (pid : ℕ) (s' : Pipeline) : Prop where
  handover : Steps s.places s'.places
  knows : ∀ p, s'.processes[pid]? = some p → p.Knows s'
  others : ∀ i, i ≠ pid → s'.processes[i]? = s.processes[i]?

theorem Sound.setProcess {pid : ℕ} {p : Process} (hsteps : Steps s.places s'.places)
    (hprocesses : s'.processes = s.processes) (hp : p.Knows (s'.setProcess pid p)) :
    Sound s pid (s'.setProcess pid p) where
  handover := hsteps
  knows q hq := by
    rw [Pipeline.setProcess, ExtTreeMap.getElem?_insert_self] at hq
    cases hq
    exact hp
  others i hi := by
    rw [Pipeline.setProcess, FiniteMap.getElem?_insert_of_ne _ _ hi.symm, hprocesses]

theorem Sound.stopProcess (s : Pipeline) (pid : ℕ) : Sound s pid (s.stopProcess pid) where
  handover := .refl
  knows q hq := by
    rw [Pipeline.stopProcess, ExtTreeMap.getElem?_erase_self] at hq
    cases hq
  others i hi := by
    rw [Pipeline.stopProcess, FiniteMap.getElem?_erase, if_neg hi.symm]

theorem places_insert {rest : List DownloadTask} {tasks : DownloadTasks} {n : ℕ}
    (h : insertTasks s.tasks rest = some (tasks, n)) :
    Steps s.places { s with tasks }.places := by
  have hplaces : { s with tasks }.places =
      ⟨s.places.waiting ∪ {url | ∃ t ∈ rest, t.url = url}, s.places.done⟩ := by
    ext url
    · exact (mem_insertTasks h url).trans or_comm
    · rfl
  rw [hplaces]
  exact .single (.enqueue _)

theorem places_record {queue : List DownloadedTarball} {tarballs : DownloadedTarballs}
    (h : upsertTarballs b s.tarballs queue = some tarballs) :
    Steps s.places { s with tarballs }.places := by
  have hplaces : { s with tarballs }.places =
      ⟨s.places.waiting, s.places.done ∪ {url | ∃ t ∈ queue, t.tarballUrl = url}⟩ := by
    ext url
    · rfl
    · exact (mem_upsertTarballs h url).trans or_comm
  rw [hplaces]
  exact .single (.record _)

theorem places_remove {urls : List String} (h : ∀ url ∈ urls, url ∈ s.tarballs) :
    Steps s.places { s with tasks := deleteTasks s.tasks urls }.places := by
  have hplaces : { s with tasks := deleteTasks s.tasks urls }.places =
      ⟨s.places.waiting \ {url | url ∈ urls}, s.places.done⟩ := by
    ext url
    · exact mem_deleteTasks s.tasks urls url
    · rfl
  rw [hplaces]
  exact .single (.remove _ h)

theorem places_error {now : DateTime} {task : DownloadTask} {e : DownloadFailed}
    {tasks : DownloadTasks} (h : updateFromError now s.tasks task e = some tasks) :
    { s with tasks }.places = s.places := by
  ext url
  · exact mem_updateFromError h url
  · rfl

theorem places_setKey (url name : String) :
    { s with tarballs := setBlobStorageKey s.tarballs url name }.places = s.places := by
  ext u
  · rfl
  · exact mem_setBlobStorageKey s.tarballs url name u

theorem sound_finish (s : Pipeline) (pid : ℕ) (retryFailed : Bool) (d : Downloads) (now : DateTime)
    (i : ℕ) (task : DownloadTask) (outcome : Outcome) :
    Sound s pid (s.finish pid retryFailed d now i task outcome) := by
  cases outcome with
  | file localPath numBytes => exact .setProcess .refl rfl trivial
  | blob => exact .setProcess .refl rfl trivial
  | error e =>
    rw [Pipeline.finish]
    cases h : updateFromError now s.tasks task e with
    | none => exact .stopProcess s pid
    | some tasks =>
      refine .setProcess ?_ rfl trivial
      rw [places_error h]

theorem sound_processStep {pid : ℕ} {p : Option Process} {a : Action}
    (hknows : ∀ q, p = some q → q.Knows s) (h : s.processStep b pid p a = some s') :
    Sound s pid s' := by
  unfold processStep at h
  split at h
  · -- a new run of `enqueue_chunk`
    split_ifs at h
    cases h
    exact .setProcess .refl rfl trivial
  · cases h
    exact .setProcess .refl rfl fun t ht hnot => url_mem_of_not_mem_filterDownloaded ht hnot
  next chunk rest =>
    have hrest : ∀ t ∈ chunk, t ∉ rest → t.url ∈ s.tarballs := hknows _ rfl
    split at h
    next tasks n htasks =>
      cases h
      refine .setProcess (places_insert htasks) rfl fun t ht => ?_
      -- a task of the chunk was filtered out or has just been inserted
      by_cases hmem : t ∈ rest
      · exact .inl ((mem_insertTasks htasks t.url).mpr (.inl ⟨t, hmem, rfl⟩))
      · exact .inr (hrest t ht hmem)
    · cases h
      exact .stopProcess s pid
  · cases h
    exact .setProcess .refl rfl trivial
  · cases h
    exact .setProcess .refl rfl trivial
  · obtain ⟨task, _, rfl⟩ := Option.map_eq_some_iff.mp h
    exact sound_finish s pid _ _ _ _ task _
  next retryFailed d n =>
    dsimp only at h
    split at h
    next tarballs htarballs =>
      cases h
      refine .setProcess (places_record htarballs) rfl fun url hurl => ?_
      obtain ⟨t, ht, hurl⟩ := List.mem_map.mp hurl
      exact (mem_upsertTarballs htarballs url).mpr (.inl ⟨t, ht, hurl⟩)
    · cases h
      exact .stopProcess s pid
  next retryFailed d urls =>
    cases h
    exact .setProcess (places_remove (hknows _ rfl)) rfl trivial
  · cases h
    exact .setProcess .refl rfl trivial
  next url name rest =>
    cases h
    refine .setProcess ?_ rfl trivial
    rw [places_setKey]
  · cases h
    exact .stopProcess s pid
  · cases h

/-- Every process knows what it has seen of the tables. -/
def Inv (s : Pipeline) : Prop := ∀ (pid : ℕ) (p : Process), s.processes[pid]? = some p → p.Knows s

theorem step_sound {a : ℕ × Action} (hinv : s.Inv) (h : s.step b a = some s') : Sound s a.1 s' :=
  sound_processStep (fun q hq => hinv a.1 q hq) h

theorem Sound.inv {i : ℕ} (hinv : s.Inv) (hsound : Sound s i s') : s'.Inv := by
  intro pid p hp
  by_cases hpid : pid = i
  · subst hpid
    exact hsound.knows p hp
  · rw [hsound.others pid hpid] at hp
    exact knows_mono hsound.handover (hinv pid p hp)

theorem Inv.step {a : ℕ × Action} (hinv : s.Inv) (h : s.step b a = some s') : s'.Inv :=
  (step_sound hinv h).inv hinv

/-- The tables before any process has started. -/
def start (tasks : DownloadTasks) (tarballs : DownloadedTarballs) : Pipeline := ⟨tasks, tarballs, ∅⟩

theorem inv_start (tasks : DownloadTasks) (tarballs : DownloadedTarballs) :
    (start tasks tarballs).Inv := by
  intro pid p hp
  simp [start] at hp

/-- The states that any interleaving of the processes reaches. -/
abbrev Reaches (b : Bool) (s s' : Pipeline) : Prop := Runs.Reach (step b) (fun _ _ => True) s s'

theorem Inv.reaches (hinv : s.Inv) (h : Reaches b s s') : s'.Inv :=
  h.invariant hinv fun hinv _ hstep => hinv.step hstep

theorem handover_of_reaches (hinv : s.Inv) (h : Reaches b s s') : Steps s.places s'.places := by
  induction h with
  | start => exact .refl
  | next run _ taken ih => exact ih.trans (step_sound (hinv.reaches run) taken).handover

/-- A URL that is in one of the tables stays in one of them, and so does, from the return of its
`enqueue_chunk` on, every URL that was enqueued. -/
theorem holds_of_enqueued {tasks : DownloadTasks} {tarballs : DownloadedTarballs}
    (hrun : Reaches b (start tasks tarballs) s) (hlater : Reaches b s s') :
    (∀ url, s.Holds url → s'.Holds url) ∧
      ∀ (pid n : ℕ) (chunk : List DownloadTask), s.processes[pid]? = some (.enqueued chunk n) →
        ∀ t ∈ chunk, s'.Holds t.url := by
  have hinv : s.Inv := (inv_start tasks tarballs).reaches hrun
  have hcovered := (handover_of_reaches hinv hlater).covered_subset
  constructor
  · intro url hurl
    exact hcovered hurl
  · intro pid n chunk henqueued t ht
    exact hcovered (hinv pid _ henqueued t ht)

/-- A URL that is downloaded between A1 and A2 of a second `enqueue_chunk` is in both tables. -/
theorem holds_of_enqueued_twice :
    let task : DownloadTask :=
      ⟨"https://r/a/-/a-1.tgz", none, none, none, none, none, none, none, 0, 0, none, none⟩
    ∃ s s', Reaches true (start ∅ ∅) s ∧ Reaches true s s' ∧
      task.url ∈ s'.tasks ∧ task.url ∈ s'.tarballs ∧ s'.Holds task.url := by
  intro task
  let first : List (ℕ × Action) :=
    [(0, .enqueueChunk [task]), (0, .filter), (0, .insert)]
  let again : List (ℕ × Action) :=
    [(1, .enqueueChunk [task]), (1, .filter), (2, .startDownload false), (2, .select none),
      (2, .finish 0 0 (.file "/a-1.tgz" 1)), (2, .record 1), (2, .remove), (1, .insert)]
  let s := (Runs.perform (step true) (start ∅ ∅) first).getD (start ∅ ∅)
  have hrun : Reaches true (start ∅ ∅) s :=
    Runs.reach_getD (fun _ _ _ => trivial) _ (by decide +kernel)
  have hlater : Reaches true s ((Runs.perform (step true) s again).getD s) :=
    Runs.reach_getD (fun _ _ _ => trivial) _ (by decide +kernel)
  have henqueued : s.processes[0]? = some (.enqueued [task] 1) := by decide +kernel
  refine ⟨s, _, hrun, hlater, by decide +kernel, by decide +kernel, ?_⟩
  exact (holds_of_enqueued hrun hlater).2 0 1 [task] henqueued task List.mem_cons_self

end Pipeline

end NpmFollower.Downloader
