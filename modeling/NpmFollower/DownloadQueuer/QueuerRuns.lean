import NpmFollower.ChangesFetcher.Listener
import NpmFollower.DiffLogBuilder.ChangePages
import NpmFollower.DownloadQueuer.DownloadTasks
import NpmFollower.Downloader.NoLostUrl

/-! # From the registry to the downloads

The queuer goes through the change log by pages. It enqueues the tasks of a page in
chunks, each of two statements, and saves the last seq of the page when all of them
have returned. It may stop at any point, with the fetcher, the downloaders and the
transfer running beside it.
-/

namespace NpmFollower.DownloadQueuer

open PostgresDb DiffLogBuilder ChangesFetcher Downloader

def PAGE_SIZE : ℤ := 1024

/-- The chunks of `enqueue_downloads`: the full ones, and what remains, if anything. -/
def enqueueChunks (downloads : List DownloadTask) : List (List DownloadTask) :=
  (List.range (downloads.length / enqueueChunkSize + 1)).map fun i =>
    (downloads.drop (i * enqueueChunkSize)).take enqueueChunkSize

/-- A page with its last seq, the number of its changes and the chunks that are left. -/
structure Page where
  lastSeq : ℤ
  numChanges : ℕ
  chunks : List (List DownloadTask)

structure QueuerRun where
  queuedUpTo : ℤ
  firstTime : Bool
  page : Option Page

/-- The queuer is the process 0 of the pipeline. -/
structure QueuerWorld where
  fetcher : FetcherWorld
  pipeline : Pipeline
  queuedSeq : Option ℤ
  run : Option QueuerRun

inductive QueuerAction where
  | fetcher (a : FetcherAction)
  /-- Another process of the pipeline. -/
  | pipeline (pid : ℕ) (a : Action)
  | start
  /-- The next page and its tasks, for the times at which these are made. -/
  | load (now : ℤ → String → DateTime)
  | enqueueChunk
  | filter
  | insert
  /-- `enqueue_chunk` returns. -/
  | next
  | save
  | kill

namespace QueuerWorld

variable (S : SerdeJson) (b : Bool)

def position (w : QueuerWorld) : ℤ := w.queuedSeq.getD 0

/-- A page without changes ends the run, and so does a panic. -/
def load (w : QueuerWorld) (now : ℤ → String → DateTime) (r : QueuerRun) : QueuerWorld :=
  let changes := queryChangesAfterSeq w.fetcher.changeLog r.queuedUpTo PAGE_SIZE
  match changes.getLast?, changes.mapM fun c => downloadTasksForChange (now c.seq) c with
  | some last, .ok tasks =>
    let page : Page := ⟨last.seq, changes.length, enqueueChunks tasks.flatten⟩
    { w with run := some { r with page } }
  | _, _ => { w with run := none }

def save (w : QueuerWorld) (r : QueuerRun) (p : Page) : QueuerWorld :=
  { w with
    queuedSeq := some p.lastSeq
    run := if p.numChanges < PAGE_SIZE ∧ ¬ r.firstTime then none
      else some ⟨p.lastSeq, false, none⟩ }

def step (w : QueuerWorld) : QueuerAction → Option QueuerWorld
  | .fetcher a => (w.fetcher.step S a).map fun fetcher => { w with fetcher }
  | .pipeline pid a =>
    if pid = 0 then none else (w.pipeline.step b (pid, a)).map fun pipeline => { w with pipeline }
  | .start => if w.run.isNone then some { w with run := some ⟨w.position, true, none⟩ } else none
  | .load now => w.run.bind fun r => if r.page.isNone then some (w.load now r) else none
  | .enqueueChunk => do
    let r ← w.run
    let p ← r.page
    let chunk ← p.chunks.head?
    let pipeline ← w.pipeline.step b (0, .enqueueChunk chunk)
    return { w with
      pipeline, run := some { r with page := some { p with chunks := p.chunks.tail } } }
  | .filter => (w.pipeline.step b (0, .filter)).map fun pipeline => { w with pipeline }
  | .insert => (w.pipeline.step b (0, .insert)).map fun pipeline =>
    -- a statement that the database rejects is a panic
    { w with pipeline, run := if pipeline.processes[0]?.isSome then w.run else none }
  | .next => match w.pipeline.processes[0]? with
    | some (Process.enqueued _ _) => some { w with pipeline := w.pipeline.stopProcess 0 }
    | _ => none
  | .save => do
    let r ← w.run
    let p ← r.page
    if p.chunks.isEmpty ∧ w.pipeline.processes[0]?.isNone then some (w.save r p) else none
  | .kill => some { w with pipeline := w.pipeline.stopProcess 0, run := none }

def initial : QueuerWorld := ⟨.initial, .start ∅ ∅, none, none⟩

end QueuerWorld

theorem exists_chunk {downloads : List DownloadTask} {t : DownloadTask} (ht : t ∈ downloads) :
    ∃ chunk ∈ enqueueChunks downloads, t ∈ chunk := by
  obtain ⟨k, hk, rfl⟩ := List.getElem_of_mem ht
  have hpos : 0 < enqueueChunkSize := by decide
  refine ⟨_, List.mem_map_of_mem (List.mem_range.mpr
    (Nat.lt_succ_of_le (Nat.div_le_div_right hk.le))), ?_⟩
  have hsplit : k / enqueueChunkSize * enqueueChunkSize + k % enqueueChunkSize = k :=
    Nat.div_add_mod' k enqueueChunkSize
  have hlt : k % enqueueChunkSize < ((downloads.drop
      (k / enqueueChunkSize * enqueueChunkSize)).take enqueueChunkSize).length := by
    rw [List.length_take, List.length_drop]
    have := Nat.mod_lt k hpos
    omega
  refine List.mem_iff_getElem.mpr ⟨k % enqueueChunkSize, hlt, ?_⟩
  rw [List.getElem_take, List.getElem_drop]
  simp only [hsplit]

/-- The tasks that the queuer has given to `enqueue_chunk`. -/
def chunkOf : Option Process → List DownloadTask
  | some (.enqueue chunk) => chunk
  | some (.insert chunk _) => chunk
  | some (.enqueued chunk _) => chunk
  | _ => []

/-- The change has been read, and of its tasks only the given ones are not in the tables. -/
def QueuedBut (s : Pipeline) (c : Change) (left : List DownloadTask) : Prop :=
  ∃ now tasks, downloadTasksForChange now c = .ok tasks ∧ ∀ t ∈ tasks, t ∈ left ∨ s.Holds t.url

theorem QueuedBut.mono {s s' : Pipeline} {c : Change} {left left' : List DownloadTask}
    (h : QueuedBut s c left) (hholds : ∀ url, s.Holds url → s'.Holds url)
    (hleft : ∀ t ∈ left, t ∈ left' ∨ s'.Holds t.url) : QueuedBut s' c left' := by
  obtain ⟨now, tasks, htasks, hall⟩ := h
  refine ⟨now, tasks, htasks, fun t ht => ?_⟩
  rcases hall t ht with hmem | hheld
  · exact hleft t hmem
  · exact .inr (hholds _ hheld)

namespace QueuerWorld

variable {S : SerdeJson} {b : Bool} {w w' : QueuerWorld}

/-- All changes up to a seq are queued, but for some tasks. -/
def QueuedTo (w : QueuerWorld) (seq : ℤ) (left : List DownloadTask) : Prop :=
  seq ≤ w.fetcher.latest ∧ ∀ c ∈ w.fetcher.changeLog, c.seq ≤ seq → QueuedBut w.pipeline c left

/-- The invariant of the queuer. -/
structure Safe (S : SerdeJson) (w : QueuerWorld) : Prop where
  fetched : w.fetcher.Fetched S
  known : w.pipeline.Inv
  queued : ∀ seq ∈ w.queuedSeq, w.QueuedTo seq []
  run : ∀ r ∈ w.run, r.queuedUpTo = w.position ∧ ∀ p ∈ r.page,
    w.QueuedTo p.lastSeq (p.chunks.flatten ++ chunkOf w.pipeline.processes[0]?)

/-- What a step keeps: the invariant, and every URL in the tables. -/
structure Goes (S : SerdeJson) (w w' : QueuerWorld) : Prop where
  safe : Safe S w'
  holds : ∀ url, w.pipeline.Holds url → w'.pipeline.Holds url

theorem QueuedTo.mono {seq : ℤ} {left left' : List DownloadTask} (h : w.QueuedTo seq left)
    (hfetcher : w'.fetcher = w.fetcher)
    (hholds : ∀ url, w.pipeline.Holds url → w'.pipeline.Holds url)
    (hleft : ∀ t ∈ left, t ∈ left' ∨ w'.pipeline.Holds t.url) : w'.QueuedTo seq left' := by
  rw [QueuedTo, hfetcher]
  exact ⟨h.1, fun c hc hle => (h.2 c hc hle).mono hholds hleft⟩

/-- New changes are behind every seq that was reached. -/
theorem QueuedTo.fetch {seq : ℤ} {left : List DownloadTask} (h : w.QueuedTo seq left)
    (hfetched : w.fetcher.Fetched S) {a : FetcherAction} {fetcher : FetcherWorld}
    (hstep : w.fetcher.step S a = some fetcher) :
    QueuedTo { w with fetcher } seq left := by
  obtain ⟨new, hlog, hlatest, hnew⟩ := hfetched.step_changeLog hstep
  refine ⟨h.1.trans hlatest, fun c hc hle => ?_⟩
  change c ∈ fetcher.changeLog at hc
  rw [hlog] at hc
  rcases List.mem_append.mp hc with hold | hc
  · exact h.2 c hold hle
  · have hlt := (hnew c hc).1
    have hreached := h.1
    omega

theorem Safe.seq_pos (h : Safe S w) {c : Change} (hc : c ∈ w.fetcher.changeLog) : 0 < c.seq := by
  obtain ⟨e, he, hstored⟩ := h.fetched.stored c hc
  rw [ChangeEvent.seq_of_stored hstored]
  exact h.fetched.positive e he

theorem Safe.position_le (h : Safe S w) : w.position ≤ w.fetcher.latest := by
  cases hseq : w.queuedSeq with
  | none =>
    rw [position, hseq, Option.getD_none]
    rcases w.fetcher.latest_eq_zero_or with hzero | ⟨c, hc, hlatest⟩
    · exact hzero.ge
    · rw [← hlatest]
      exact (h.seq_pos hc).le
  | some seq =>
    rw [position, hseq]
    exact (h.queued seq hseq).1

theorem queuedBut_of_le (h : Safe S w) {c : Change} (hc : c ∈ w.fetcher.changeLog)
    (hle : c.seq ≤ w.position) : QueuedBut w.pipeline c [] := by
  cases hseq : w.queuedSeq with
  | none =>
    have hpos := h.seq_pos hc
    rw [position, hseq, Option.getD_none] at hle
    omega
  | some seq =>
    rw [position, hseq, Option.getD_some] at hle
    exact (h.queued seq hseq).2 c hc hle

/-- Every change up to the last one of a page is queued or in the page. -/
theorem Safe.load (h : Safe S w) {r : QueuerRun} (hr : w.run = some r)
    (now : ℤ → String → DateTime) : Goes S w (w.load now r) := by
  have hstopped : Safe S { w with run := none } := ⟨h.fetched, h.known, h.queued, by rintro _ ⟨⟩⟩
  rw [QueuerWorld.load]
  dsimp only
  split
  case h_2 => exact ⟨hstopped, fun _ hurl => hurl⟩
  case h_1 last tasks hlast htasks =>
    have hposition := (h.run r hr).1
    refine ⟨⟨h.fetched, h.known, h.queued, ?_⟩, fun _ hurl => hurl⟩
    rintro _ ⟨⟩
    refine ⟨hposition, ?_⟩
    rintro _ ⟨⟩
    have hmem := (mem_queryChangesAfterSeq (List.mem_of_getLast? hlast)).1
    refine ⟨FetcherWorld.le_latest hmem, fun c hc hle => ?_⟩
    rcases le_or_gt c.seq r.queuedUpTo with hold | hnew
    · rw [hposition] at hold
      refine (queuedBut_of_le h hc hold).mono (fun _ hurl => hurl) ?_
      rintro t ⟨⟩
    · have hnodup : (w.fetcher.changeLog.map Change.seq).Nodup :=
        List.Pairwise.map _ (fun _ _ hlt => hlt.ne) h.fetched.ordered
      have hin := mem_queryChangesAfterSeq_of_le hnodup hlast hc hnew hle
      obtain ⟨tasksOf, htasksOf, hread⟩ :=
        Folds.exists_of_mem_right (Folds.mapM_eq_ok_iff.mp htasks).flip hin
      refine ⟨now c.seq, tasksOf, hread, fun t ht => .inl ?_⟩
      obtain ⟨chunk, hchunk, htchunk⟩ := exists_chunk (List.mem_flatten.mpr ⟨_, htasksOf, ht⟩)
      exact List.mem_append_left _ (List.mem_flatten.mpr ⟨chunk, hchunk, htchunk⟩)

/-- A step of the pipeline that leaves the tasks of the queuer to it. -/
theorem Safe.advance (h : Safe S w) {pid : ℕ} {s : Pipeline} (hsound : w.pipeline.Sound pid s)
    {run : Option QueuerRun} (hrun : ∀ r ∈ run, r.queuedUpTo = w.position ∧ ∀ p ∈ r.page,
      ∃ r' ∈ w.run, ∃ p' ∈ r'.page, p'.lastSeq = p.lastSeq ∧
        ∀ t ∈ p'.chunks.flatten ++ chunkOf w.pipeline.processes[0]?,
          t ∈ p.chunks.flatten ++ chunkOf s.processes[0]? ∨ s.Holds t.url) :
    Goes S w { w with pipeline := s, run } := by
  have hholds : ∀ url, w.pipeline.Holds url → s.Holds url :=
    fun _ hurl => hsound.handover.covered_subset hurl
  refine ⟨⟨h.fetched, hsound.inv h.known, fun seq hseq => ?_, fun r hr => ?_⟩, hholds⟩
  · refine (h.queued seq hseq).mono rfl hholds ?_
    rintro t ⟨⟩
  · obtain ⟨hposition, hpage⟩ := hrun r hr
    refine ⟨hposition, fun p hp => ?_⟩
    obtain ⟨r', hr', p', hp', hlast, hleft⟩ := hpage p hp
    rw [← hlast]
    exact ((h.run r' hr').2 p' hp').mono rfl hholds hleft

/-- Where the run and its chunk stay as they are. -/
theorem Safe.keep (h : Safe S w) {pid : ℕ} {s : Pipeline} (hsound : w.pipeline.Sound pid s)
    {run : Option QueuerRun} (hrun : run = w.run ∨ run = none)
    (hchunk : ∀ t ∈ chunkOf w.pipeline.processes[0]?,
      run = none ∨ t ∈ chunkOf s.processes[0]? ∨ s.Holds t.url) :
    Goes S w { w with pipeline := s, run } := by
  apply h.advance hsound
  intro r hr
  rcases hrun with rfl | rfl
  · refine ⟨(h.run r hr).1, fun p hp => ⟨r, hr, p, hp, rfl, fun t ht => ?_⟩⟩
    rcases List.mem_append.mp ht with ht | ht
    · exact .inl (List.mem_append_left _ ht)
    · rcases hchunk t ht with hnone | hkept | hheld
      · rw [hnone] at hr
        cases hr
      · exact .inl (List.mem_append_right _ hkept)
      · exact .inr hheld
  · cases hr

theorem step_enqueueChunk {s s' : Pipeline} {chunk : List DownloadTask}
    (h : s.step b (0, .enqueueChunk chunk) = some s') :
    s.processes[0]? = none ∧ s'.processes[0]? = some (.enqueue chunk) := by
  rw [Pipeline.step] at h
  dsimp only at h
  cases hp : s.processes[0]? with
  | none =>
    rw [hp, Pipeline.processStep] at h
    split_ifs at h
    cases h
    exact ⟨rfl, Std.ExtTreeMap.getElem?_insert_self⟩
  | some p =>
    rw [hp] at h
    cases p <;> simp [Pipeline.processStep] at h

theorem step_filter {s s' : Pipeline} (h : s.step b (0, .filter) = some s') :
    chunkOf s'.processes[0]? = chunkOf s.processes[0]? := by
  rw [Pipeline.step] at h
  dsimp only at h
  cases hp : s.processes[0]? with
  | none =>
    rw [hp] at h
    simp [Pipeline.processStep] at h
  | some p =>
    rw [hp] at h
    cases p <;> simp [Pipeline.processStep] at h
    rw [← h, Pipeline.setProcess, Std.ExtTreeMap.getElem?_insert_self]
    rfl

theorem step_insert {s s' : Pipeline} (h : s.step b (0, .insert) = some s') :
    s'.processes[0]? = none ∨ chunkOf s'.processes[0]? = chunkOf s.processes[0]? := by
  rw [Pipeline.step] at h
  dsimp only at h
  cases hp : s.processes[0]? with
  | none =>
    rw [hp] at h
    simp [Pipeline.processStep] at h
  | some p =>
    rw [hp] at h
    cases p <;> simp only [Pipeline.processStep] at h <;> try cases h
    case insert chunk rest =>
      split at h
      · cases h
        right
        rw [Pipeline.setProcess, Std.ExtTreeMap.getElem?_insert_self]
        rfl
      · cases h
        left
        rw [Pipeline.stopProcess, Std.ExtTreeMap.getElem?_erase_self]

theorem Safe.save (h : Safe S w) {r : QueuerRun} {p : Page} (hr : w.run = some r)
    (hp : r.page = some p) (hchunks : p.chunks = []) (hprocess : w.pipeline.processes[0]? = none) :
    Goes S w (w.save r p) := by
  have hqueued := (h.run r hr).2 p hp
  rw [hchunks, hprocess] at hqueued
  refine ⟨⟨h.fetched, h.known, ?_, ?_⟩, fun _ hurl => hurl⟩
  · rintro _ ⟨⟩
    exact hqueued
  · intro r' hr'
    rw [QueuerWorld.save] at hr'
    dsimp only at hr'
    split_ifs at hr'
    · cases hr'
    · cases hr'
      refine ⟨rfl, ?_⟩
      rintro _ ⟨⟩

theorem Safe.step (h : Safe S w) {a : QueuerAction} (hstep : w.step S b a = some w') :
    Goes S w w' := by
  cases a with
  | fetcher a =>
    obtain ⟨fetcher, hfetcher, rfl⟩ := Option.map_eq_some_iff.mp hstep
    exact ⟨⟨h.fetched.step hfetcher, h.known,
      fun seq hseq => (h.queued seq hseq).fetch h.fetched hfetcher,
      fun r hr => ⟨(h.run r hr).1, fun p hp => ((h.run r hr).2 p hp).fetch h.fetched hfetcher⟩⟩,
      fun _ hurl => hurl⟩
  | pipeline pid a =>
    rw [QueuerWorld.step] at hstep
    split_ifs at hstep with hpid
    obtain ⟨s, hs, rfl⟩ := Option.map_eq_some_iff.mp hstep
    have hsound := Pipeline.step_sound h.known hs
    refine h.keep hsound (.inl rfl) fun t ht => .inr (.inl ?_)
    rw [hsound.others 0 (Ne.symm hpid)]
    exact ht
  | start =>
    rw [QueuerWorld.step] at hstep
    split_ifs at hstep
    cases hstep
    refine ⟨⟨h.fetched, h.known, h.queued, ?_⟩, fun _ hurl => hurl⟩
    rintro _ ⟨⟩
    refine ⟨rfl, ?_⟩
    rintro _ ⟨⟩
  | load now =>
    obtain ⟨r, hr, hload⟩ := Option.bind_eq_some_iff.mp hstep
    split_ifs at hload
    cases hload
    exact h.load hr now
  | enqueueChunk =>
    obtain ⟨r, hr, hstep⟩ := Option.bind_eq_some_iff.mp hstep
    obtain ⟨p, hp, hstep⟩ := Option.bind_eq_some_iff.mp hstep
    obtain ⟨chunk, hchunk, hstep⟩ := Option.bind_eq_some_iff.mp hstep
    obtain ⟨s, hs, hlast⟩ := Option.bind_eq_some_iff.mp hstep
    cases hlast
    obtain ⟨hidle, hprocess⟩ := step_enqueueChunk hs
    obtain ⟨rest, hrest⟩ := List.head?_eq_some_iff.mp hchunk
    apply h.advance (Pipeline.step_sound h.known hs)
    rintro _ ⟨⟩
    refine ⟨(h.run r hr).1, ?_⟩
    rintro _ ⟨⟩
    refine ⟨r, hr, p, hp, rfl, fun t ht => .inl ?_⟩
    -- the first chunk has become the one that is enqueued
    rw [hidle, hrest] at ht
    rw [hprocess, hrest]
    simp only [chunkOf, List.flatten_cons, List.append_nil, List.mem_append, List.tail_cons] at ht ⊢
    exact ht.symm
  | filter =>
    obtain ⟨s, hs, rfl⟩ := Option.map_eq_some_iff.mp hstep
    refine h.keep (Pipeline.step_sound h.known hs) (.inl rfl) fun t ht => .inr (.inl ?_)
    rw [step_filter hs]
    exact ht
  | insert =>
    obtain ⟨s, hs, rfl⟩ := Option.map_eq_some_iff.mp hstep
    refine h.keep (Pipeline.step_sound h.known hs) ?_ fun t ht => ?_
    · split_ifs
      · exact .inl rfl
      · exact .inr rfl
    · rcases step_insert hs with hstopped | hkept
      · left
        rw [hstopped]
        rfl
      · right
        left
        rw [hkept]
        exact ht
  | next =>
    rw [QueuerWorld.step] at hstep
    split at hstep
    case h_1 chunk n hprocess =>
      cases hstep
      refine h.keep (Pipeline.Sound.stopProcess w.pipeline 0) (.inl rfl) fun t ht => .inr (.inr ?_)
      rw [hprocess] at ht
      exact h.known 0 _ hprocess t ht
    case h_2 => cases hstep
  | save =>
    obtain ⟨r, hr, hstep⟩ := Option.bind_eq_some_iff.mp hstep
    obtain ⟨p, hp, hstep⟩ := Option.bind_eq_some_iff.mp hstep
    split_ifs at hstep with hdone
    cases hstep
    exact h.save hr hp (List.isEmpty_iff.mp hdone.1) (Option.isNone_iff_eq_none.mp hdone.2)
  | kill =>
    cases hstep
    exact h.keep (Pipeline.Sound.stopProcess w.pipeline 0) (.inr rfl) fun _ _ => .inl rfl

theorem safe_initial (S : SerdeJson) : Safe S initial where
  fetched := FetcherWorld.fetched_initial S
  known := Pipeline.inv_start ∅ ∅
  queued := by rintro _ ⟨⟩
  run := by rintro _ ⟨⟩

/-- The states of the fetcher, the queuer and the downloaders, whatever stops them. -/
abbrev Reaches (S : SerdeJson) (b : Bool) (w w' : QueuerWorld) : Prop :=
  Runs.Reach (step S b) (fun _ _ => True) w w'

theorem Safe.reaches (h : Safe S w) (hrun : Reaches S b w w') : Goes S w w' :=
  hrun.invariant ⟨h, fun _ hurl => hurl⟩ fun hinv _ hstep =>
    have hgoes := hinv.safe.step hstep
    ⟨hgoes.safe, fun url hurl => hgoes.holds url (hinv.holds url hurl)⟩

/-- Up to the saved position every current change of the registry is in the log, and each change
there was read without a panic; the URLs of its tasks are from then on waiting or downloaded, among
them the tarballs of all versions that the diff log builder reads in it. -/
theorem tarballs_queued (h : Reaches S b initial w) :
    (∀ e, Current w.fetcher.published e → e.seqNum ≤ w.position →
      ∃ c ∈ w.fetcher.changeLog, e.stored S = some c) ∧
    ∀ c ∈ w.fetcher.changeLog, c.seq ≤ w.position → ∃ now tasks,
      downloadTasksForChange now c = .ok tasks ∧
      (∀ w', Reaches S b w w' → ∀ t ∈ tasks, w'.pipeline.Holds t.url) ∧
      ∀ (P : Parsers) (name : String) (data : PackageOnlyPackument)
        (versions : AllVersionPackuments), OnceKeyed c.rawJson →
        P.deserializeChange c = some (some (name, data, versions)) →
        ∀ (v : Semver) (packument : VersionOnlyPackument), versions[v]? = some packument →
          ∃ t ∈ tasks, t.url = packument.dist.tarballUrl := by
  have hsafe := ((safe_initial S).reaches h).safe
  constructor
  · intro e hcurrent hle
    apply hsafe.fetched.passed e hcurrent
    exact hle.trans hsafe.position_le
  · intro c hc hle
    obtain ⟨now, tasks, htasks, hall⟩ := queuedBut_of_le hsafe hc hle
    refine ⟨now, tasks, htasks, fun w' hrun t ht => ?_, fun P name data versions hkeyed hread => ?_⟩
    · rcases hall t ht with hleft | hheld
      · cases hleft
      · exact (hsafe.reaches hrun).holds _ hheld
    · obtain ⟨tasks', htasks', hqueues⟩ := queues_of_deserializeChange hkeyed hread now
      rw [htasks] at htasks'
      cases htasks'
      intro v packument hpackument
      obtain ⟨t, ht, _, rfl⟩ := hqueues.exists_task hpackument
      exact ⟨_, ht, rfl⟩

/-- Every text is that of the one value. -/
def oneValue (v : Value) : SerdeJson where
  numberText _ := ['0']
  fromStr _ := some v
  numberText_plain := stringsOnly.numberText_plain

def samplePackument : Value := (sampleChange 0 [] [("1.0.0", "a")]).rawJson

/-- The queuer is killed between the two statements of its chunk, and queues the page again. -/
def sampleActions : List QueuerAction :=
  [.fetcher (.publish ⟨"p", .number (.posInt 1), samplePackument⟩), .fetcher .listen,
    .fetcher .receive, .start, .load fun _ _ => 0, .enqueueChunk, .filter, .kill, .start,
    .load fun _ _ => 0, .enqueueChunk, .filter, .insert, .next, .save]

theorem tarballs_queued_killed : ∃ w : QueuerWorld, ∃ c ∈ w.fetcher.changeLog, w.position = 1 ∧
    ∃ now tasks, downloadTasksForChange now c = .ok tasks ∧
      ∀ t ∈ tasks, w.pipeline.Holds t.url := by
  have hsome : (Runs.perform (step (oneValue samplePackument) true) initial sampleActions).map
      (fun w => (w.position, w.fetcher.changeLog.map Change.seq)) = some (1, [1]) := by
    decide +kernel
  obtain ⟨w, hw, heq⟩ := Option.map_eq_some_iff.mp hsome
  obtain ⟨hposition, hseqs⟩ := Prod.mk.inj heq
  have hreach : Reaches (oneValue samplePackument) true initial w :=
    Runs.reach_of_perform (fun _ _ _ => trivial) hw
  have hmem : (1 : ℤ) ∈ w.fetcher.changeLog.map Change.seq := by
    rw [hseqs]
    exact List.mem_singleton_self 1
  obtain ⟨c, hc, hseq⟩ := List.mem_map.mp hmem
  have hle : c.seq ≤ w.position := by
    rw [hseq, hposition]
  obtain ⟨now, tasks, htasks, hholds, -⟩ := (tarballs_queued hreach).2 c hc hle
  exact ⟨w, c, hc, hposition, now, tasks, htasks, hholds w .start⟩

/-! ## The queuer alone comes to the end of the log -/

/-- The queuer does not panic on the change, and the tasks fit into their column. -/
def Queueable (c : Change) : Prop :=
  ∀ now, ∃ tasks, downloadTasksForChange now c = .ok tasks ∧ ∀ t ∈ tasks, t.url.length ≤ 2048

/-- A chunk that the statements of `enqueue_chunk` accept. -/
def FitsChunk (chunk : List DownloadTask) : Prop :=
  chunk.length ≤ enqueueChunkSize ∧ ∀ t ∈ chunk, t.url.length ≤ 2048

theorem fitsChunk_of_mem {downloads chunk : List DownloadTask}
    (hdownloads : ∀ t ∈ downloads, t.url.length ≤ 2048) (hchunk : chunk ∈ enqueueChunks downloads) :
    FitsChunk chunk := by
  obtain ⟨i, -, rfl⟩ := List.mem_map.mp hchunk
  refine ⟨List.length_take_le _ _, fun t ht => hdownloads t ?_⟩
  exact List.mem_of_mem_drop (List.mem_of_mem_take ht)

theorem exists_insertTasks {tasks : DownloadTasks} {rest : List DownloadTask}
    (h : ∀ t ∈ rest, t.url.length ≤ 2048) :
    ∃ tasks' n, insertTasks tasks rest = some (tasks', n) := by
  refine ⟨(rest.foldl insertTask (tasks, 0)).1, (rest.foldl insertTask (tasks, 0)).2, ?_⟩
  rw [insertTasks, if_pos]
  simpa using h

theorem seq_le_of_getLast? {changeLog : List Change} {afterSeq limitSize : ℤ} {last c : Change}
    (hlast : (queryChangesAfterSeq changeLog afterSeq limitSize).getLast? = some last)
    (hc : c ∈ queryChangesAfterSeq changeLog afterSeq limitSize) : c.seq ≤ last.seq := by
  have hordered : (queryChangesAfterSeq changeLog afterSeq limitSize).Pairwise SeqLe :=
    (List.pairwise_insertionSort SeqLe _).sublist (List.take_sublist _ _)
  obtain ⟨page, hpage⟩ := List.getLast?_eq_some_iff.mp hlast
  rw [hpage] at hc hordered
  rcases List.mem_append.mp hc with hc | hc
  · exact (List.pairwise_append.mp hordered).2.2 c hc last (List.mem_singleton_self last)
  · rw [List.mem_singleton.mp hc]

section Alone

variable {f : FetcherWorld} {s : Pipeline} {q : Option ℤ} {upTo : ℤ} {first : Bool}

/-- The two statements of a chunk go through. -/
theorem reaches_chunk {last : ℤ} {n : ℕ} {chunk : List DownloadTask}
    {rest : List (List DownloadTask)} (hidle : s.processes[0]? = none) (hchunk : FitsChunk chunk) :
    ∃ s', Reaches S b ⟨f, s, q, some ⟨upTo, first, some ⟨last, n, chunk :: rest⟩⟩⟩
      ⟨f, s', q, some ⟨upTo, first, some ⟨last, n, rest⟩⟩⟩ ∧ s'.processes[0]? = none := by
  have hset (s : Pipeline) (p : Process) : (s.setProcess 0 p).processes[0]? = some p :=
    Std.ExtTreeMap.getElem?_insert_self
  let s₁ := s.setProcess 0 (.enqueue chunk)
  have h₁ : s.step b (0, .enqueueChunk chunk) = some s₁ := by
    rw [Pipeline.step, hidle, Pipeline.processStep, if_pos hchunk.1]
  let left := filterDownloaded s₁.tarballs chunk
  let s₂ := s₁.setProcess 0 (.insert chunk left)
  have h₂ : s₁.step b (0, .filter) = some s₂ := by
    rw [Pipeline.step, hset, Pipeline.processStep]
  obtain ⟨tasks, k, htasks⟩ := @exists_insertTasks s₂.tasks left fun t ht =>
    hchunk.2 t (List.mem_filter.mp ht).1
  let s₃ := { s₂ with tasks }.setProcess 0 (.enqueued chunk k)
  have h₃ : s₂.step b (0, .insert) = some s₃ := by
    rw [Pipeline.step, hset, Pipeline.processStep, htasks]
  have h₄ : s₃.processes[0]? = some (.enqueued chunk k) := hset _ _
  let run : Option QueuerRun := some ⟨upTo, first, some ⟨last, n, rest⟩⟩
  have t₁ : step S b ⟨f, s, q, some ⟨upTo, first, some ⟨last, n, chunk :: rest⟩⟩⟩ .enqueueChunk =
      some ⟨f, s₁, q, run⟩ := by
    simp [QueuerWorld.step, h₁, run]
  have t₂ : step S b ⟨f, s₁, q, run⟩ .filter = some ⟨f, s₂, q, run⟩ := by
    simp [QueuerWorld.step, h₂]
  have t₃ : step S b ⟨f, s₂, q, run⟩ .insert = some ⟨f, s₃, q, run⟩ := by
    simp only [QueuerWorld.step, h₃, Option.map_some, h₄, Option.isSome_some, if_true]
  have t₄ : step S b ⟨f, s₃, q, run⟩ .next = some ⟨f, s₃.stopProcess 0, q, run⟩ := by
    simp [QueuerWorld.step, h₄]
  refine ⟨s₃.stopProcess 0, ?_, Std.ExtTreeMap.getElem?_erase_self⟩
  exact (((Runs.Reach.start.next trivial t₁).next trivial t₂).next trivial t₃).next trivial t₄

theorem reaches_chunks {last : ℤ} {n : ℕ} {chunks : List (List DownloadTask)}
    (hidle : s.processes[0]? = none) (hchunks : ∀ chunk ∈ chunks, FitsChunk chunk) :
    ∃ s', Reaches S b ⟨f, s, q, some ⟨upTo, first, some ⟨last, n, chunks⟩⟩⟩
      ⟨f, s', q, some ⟨upTo, first, some ⟨last, n, []⟩⟩⟩ ∧ s'.processes[0]? = none := by
  induction chunks generalizing s with
  | nil => exact ⟨s, .start, hidle⟩
  | cons chunk rest ih =>
    obtain ⟨s₁, hfirst, hidle₁⟩ := reaches_chunk hidle (hchunks chunk List.mem_cons_self)
    obtain ⟨s', hrest, hidle'⟩ :=
      ih hidle₁ fun chunk' hchunk' => hchunks chunk' (List.mem_cons_of_mem _ hchunk')
    exact ⟨s', hfirst.trans hrest, hidle'⟩

/-- One page. A run that ends behind it has come to the end of the log. -/
theorem reaches_page (hidle : s.processes[0]? = none) (hreads : ∀ c ∈ f.changeLog, Queueable c)
    {last : Change}
    (hlast : (queryChangesAfterSeq f.changeLog upTo PAGE_SIZE).getLast? = some last) :
    ∃ s' run, Reaches S b ⟨f, s, q, some ⟨upTo, first, none⟩⟩ ⟨f, s', some last.seq, run⟩ ∧
      s'.processes[0]? = none ∧ (run = some ⟨last.seq, false, none⟩ ∨
        run = none ∧ ∀ c ∈ f.changeLog, upTo < c.seq →
          c ∈ queryChangesAfterSeq f.changeLog upTo PAGE_SIZE) := by
  let changes := queryChangesAfterSeq f.changeLog upTo PAGE_SIZE
  have hmem : ∀ c ∈ changes, c ∈ f.changeLog := fun c hc => (mem_queryChangesAfterSeq hc).1
  obtain ⟨tasks, htasks⟩ := Folds.exists_mapM_ok_of_forall
    (f := fun c : Change => downloadTasksForChange (fun _ => 0) c) (l := changes) fun c hc => by
      obtain ⟨tasks, htasks, -⟩ := hreads c (hmem c hc) fun _ => 0
      exact ⟨tasks, htasks⟩
  have hshort : ∀ t ∈ tasks.flatten, t.url.length ≤ 2048 := by
    intro t ht
    obtain ⟨tasksOf, htasksOf, ht⟩ := List.mem_flatten.mp ht
    obtain ⟨c, hc, hread⟩ := Folds.exists_of_mem_right (Folds.mapM_eq_ok_iff.mp htasks) htasksOf
    obtain ⟨tasks', htasks', hfits⟩ := hreads c (hmem c hc) fun _ => 0
    rw [hread] at htasks'
    cases htasks'
    exact hfits t ht
  let page : Page := ⟨last.seq, changes.length, enqueueChunks tasks.flatten⟩
  have hload : step S b ⟨f, s, q, some ⟨upTo, first, none⟩⟩ (.load fun _ _ => 0) =
      some ⟨f, s, q, some ⟨upTo, first, some page⟩⟩ := by
    simp only [QueuerWorld.step, Option.bind_some, Option.isNone_none, if_true, QueuerWorld.load]
    rw [hlast, htasks]
  obtain ⟨s', hchunks, hidle'⟩ := @reaches_chunks S b f s q upTo first last.seq changes.length
    (enqueueChunks tasks.flatten) hidle fun chunk hchunk => fitsChunk_of_mem hshort hchunk
  let run : Option QueuerRun :=
    if (changes.length : ℤ) < PAGE_SIZE ∧ ¬ first then none else some ⟨last.seq, false, none⟩
  have hsave : step S b ⟨f, s', q, some ⟨upTo, first, some ⟨last.seq, changes.length, []⟩⟩⟩ .save =
      some ⟨f, s', some last.seq, run⟩ := by
    simp [QueuerWorld.step, hidle', QueuerWorld.save, run]
  refine ⟨s', run, ((Runs.Reach.start.next trivial hload).trans hchunks).next trivial hsave, hidle',
    ?_⟩
  by_cases hend : (changes.length : ℤ) < PAGE_SIZE ∧ ¬ first
  · refine .inr ⟨if_pos hend, fun c hc hnew => ?_⟩
    -- a page that is not full has all changes
    have hall : changes = (f.changeLog.filter fun c => upTo < c.seq).insertionSort SeqLe := by
      apply List.take_of_length_le
      have hlength : ((queryChangesAfterSeq f.changeLog upTo PAGE_SIZE).length : ℤ) < PAGE_SIZE :=
        hend.1
      rw [queryChangesAfterSeq, List.length_take] at hlength
      have hsize : PAGE_SIZE = 1024 := rfl
      omega
    change c ∈ changes
    rw [hall, List.mem_insertionSort]
    simp [hc, hnew]
  · exact .inl (if_neg hend)

theorem reaches_end (hidle : s.processes[0]? = none) (hreads : ∀ c ∈ f.changeLog, Queueable c)
    (hupTo : upTo = q.getD 0) : ∃ s' q', Reaches S b ⟨f, s, q, some ⟨upTo, first, none⟩⟩
      ⟨f, s', q', none⟩ ∧ ∀ c ∈ f.changeLog, c.seq ≤ q'.getD 0 := by
  -- every page takes a change
  induction hlength : (f.changeLog.filter fun c => upTo < c.seq).length
    using Nat.strong_induction_on generalizing s q upTo first with
  | _ k ih =>
    cases hlast : (queryChangesAfterSeq f.changeLog upTo PAGE_SIZE).getLast? with
    | none =>
      have hload : step S b ⟨f, s, q, some ⟨upTo, first, none⟩⟩ (.load fun _ _ => 0) =
          some ⟨f, s, q, none⟩ := by
        simp only [QueuerWorld.step, Option.bind_some, Option.isNone_none, if_true,
          QueuerWorld.load]
        rw [hlast]
      refine ⟨s, q, Runs.Reach.start.next trivial hload, fun c hc => ?_⟩
      by_contra hnew
      have hnil := List.getLast?_eq_none_iff.mp hlast
      have hmem : c ∈ (f.changeLog.filter fun c => upTo < c.seq).insertionSort SeqLe := by
        rw [List.mem_insertionSort]
        simp only [List.mem_filter, hc, true_and, decide_eq_true_eq]
        omega
      rw [queryChangesAfterSeq, List.take_eq_nil_iff] at hnil
      rcases hnil with hzero | hnil
      · exact absurd hzero (by decide)
      · rw [hnil] at hmem
        cases hmem
    | some last =>
      obtain ⟨hlog, hnew⟩ := mem_queryChangesAfterSeq (List.mem_of_getLast? hlast)
      obtain ⟨s₁, run, hpage, hidle₁, hrun⟩ :=
        @reaches_page S b f s q upTo first hidle hreads last hlast
      rcases hrun with rfl | ⟨rfl, hall⟩
      · have hfewer : (f.changeLog.filter fun c => last.seq < c.seq).length < k := by
          have hsub : (f.changeLog.filter fun c => last.seq < c.seq) =
              (f.changeLog.filter fun c => upTo < c.seq).filter fun c => last.seq < c.seq := by
            rw [List.filter_filter]
            refine List.filter_congr fun c _ => ?_
            rw [← Bool.decide_and, decide_eq_decide]
            omega
          rw [← hlength, hsub, List.length_filter_lt_length_iff_exists]
          exact ⟨last, by simp [hlog, hnew], by simp⟩
        obtain ⟨s', q', hend, hle⟩ := ih _ hfewer hidle₁ (q := some last.seq) rfl rfl
        exact ⟨s', q', hpage.trans hend, hle⟩
      · refine ⟨s₁, _, hpage, fun c hc => ?_⟩
        rw [Option.getD_some]
        rcases le_or_gt c.seq upTo with hold | hafter
        · omega
        · exact seq_le_of_getLast? hlast (hall c hc hafter)

end Alone

theorem queueable_sample {f : FetcherWorld} (h : f.Fetched (oneValue samplePackument)) :
    ∀ c ∈ f.changeLog, Queueable c := by
  intro c hc
  obtain ⟨e, -, hstored⟩ := h.stored c hc
  obtain ⟨seq, -, hstored⟩ := Option.bind_eq_some_iff.mp hstored
  cases hstored
  intro now
  refine ⟨[freshTask (now "1.0.0") "a" none none none none none none none], rfl, fun t ht => ?_⟩
  rw [List.mem_singleton.mp ht]
  change "a".length ≤ 2048
  decide

end QueuerWorld

end NpmFollower.DownloadQueuer
