import NpmFollower.PostgresDb.DownloadQueue

/-! # Downloading to a directory

`download_to_dest` hands the queued tasks to a pool of workers, a page at a time,
and receives one message for each. Which of the outstanding downloads ends next
is open; it is given with each message.
-/

namespace NpmFollower.PostgresDb

open Std

/-- The rows that a download is for, in the order of their URLs. -/
def queuedTasks (tasks : DownloadTasks) (retryFailed : Bool) : List DownloadTask :=
  (tasks.toList.filter fun row => retryFailed || row.2.failed.isNone).map (·.2)

def getTotalTasksNum (tasks : DownloadTasks) (retryFailed : Bool) : ℕ :=
  (queuedTasks tasks retryFailed).length

/-- `load_chunk_init` for pages of `chunkSize` rows. -/
def loadChunkInitOf (chunkSize : ℕ) (tasks : DownloadTasks) (retryFailed : Bool) :
    List DownloadTask :=
  (queuedTasks tasks retryFailed).take chunkSize

/-- The queued rows with a URL after the last one. -/
def queuedAfter (tasks : DownloadTasks) (lastUrl : String) (retryFailed : Bool) :
    List DownloadTask :=
  ((tasks.toList.filter fun row =>
    (retryFailed || row.2.failed.isNone) && compare lastUrl row.1 = .lt).map (·.2))

/-- `load_chunk_next` for pages of `chunkSize` rows. -/
def loadChunkNextOf (chunkSize : ℕ) (tasks : DownloadTasks) (lastUrl : String)
    (retryFailed : Bool) : List DownloadTask :=
  (queuedAfter tasks lastUrl retryFailed).take chunkSize

theorem loadChunkInit_eq (tasks : DownloadTasks) (retryFailed : Bool) :
    loadChunkInit tasks retryFailed = loadChunkInitOf tasksChunkSize tasks retryFailed :=
  rfl

theorem loadChunkNext_eq (tasks : DownloadTasks) (lastUrl : String) (retryFailed : Bool) :
    loadChunkNext tasks lastUrl retryFailed =
      loadChunkNextOf tasksChunkSize tasks lastUrl retryFailed :=
  rfl

end NpmFollower.PostgresDb

namespace NpmFollower.Downloader

open Std PostgresDb

/-- A file that `download_task` has written. -/
structure DownloadedFile where
  downloadedAt : DateTime
  localPath : String
  numBytes : ℤ
  deriving DecidableEq

/-- What the workers send; an error comes as the database is to keep it. -/
inductive DbMessage where
  | tarball (tarball : DownloadedTarball)
  | error (e : DownloadFailed) (task : DownloadTask)
  deriving DecidableEq

/-- How `download_task` ends for each task. -/
abbrev Download := DownloadTask → Except DownloadFailed DownloadedFile

def Download.message (download : Download) (task : DownloadTask) : DbMessage :=
  match download task with
  | .ok file => .tarball (.fromTask file.downloadedAt task file.localPath file.numBytes)
  | .error e => .error e task

inductive DestPanic where
  /-- `assert!(TASKS_CHUNK_SIZE > num_workers && num_workers > 0)` -/
  | numWorkers
  | insertTarballs
  | updateTask
  /-- Not a panic: `recv` waits for a message that no download will send. -/
  | waitsForever
  deriving DecidableEq

structure Tables where
  tasks : DownloadTasks
  tarballs : DownloadedTarballs

def updateFromTarballs (numBytesNotNull : Bool) (t : Tables) (tarballs : List DownloadedTarball) :
    Except DestPanic Tables :=
  match upsertTarballs numBytesNotNull t.tarballs tarballs with
  | some table => .ok ⟨deleteTasks t.tasks (tarballs.map (·.tarballUrl)), table⟩
  | none => .error .insertTarballs

/-- The main thread, with the tasks given to the pool so far, those of them whose message is
still to come, and those whose message was received. -/
structure DestState where
  tables : Tables
  dispatched : List DownloadTask
  outstanding : List DownloadTask
  received : List DownloadTask
  lastUrl : String
  lastChunkSize : ℕ
  downloadCounter : ℕ
  tarballsQueue : List DownloadedTarball

namespace DestState

variable (s : DestState)

def updateFromTarballQueue (numBytesNotNull : Bool) : Except DestPanic DestState :=
  if s.tarballsQueue = [] then .ok s
  else do
    let tables ← updateFromTarballs numBytesNotNull s.tables s.tarballsQueue
    return { s with tables := tables, tarballsQueue := [] }

/-- `pool.download_chunk`, with the counters of the new chunk. -/
def downloadChunk (chunk : List DownloadTask) : DestState :=
  { s with
    dispatched := s.dispatched ++ chunk
    outstanding := s.outstanding ++ chunk
    lastUrl := (chunk.getLast?.map (·.url)).getD s.lastUrl
    lastChunkSize := chunk.length
    downloadCounter := 0 }

/-- The next chunk, once all downloads of the last one but one are counted. -/
def refill (chunkSize : ℕ) (numBytesNotNull retryFailed : Bool) : Except DestPanic DestState :=
  if s.downloadCounter + 1 = s.lastChunkSize then do
    let s ← s.updateFromTarballQueue numBytesNotNull
    return s.downloadChunk (loadChunkNextOf chunkSize s.tables.tasks s.lastUrl retryFailed)
  else .ok s

/-- The message of an outstanding download. -/
def handle (now : DateTime) : DbMessage → Except DestPanic DestState
  | .tarball tarball => .ok { s with tarballsQueue := s.tarballsQueue ++ [tarball] }
  | .error e task =>
    match updateFromError now s.tables.tasks task e with
    | some tasks => .ok { s with tables := { s.tables with tasks := tasks } }
    | none => .error .updateTask

/-- `recv`, and what is done with the message; `pick` says which download has ended. -/
def receive (download : Download) (pick : ℕ) (now : DateTime) : Except DestPanic DestState :=
  match s.outstanding[pick % s.outstanding.length]? with
  | none => .error .waitsForever
  | some task => do
    let s ← s.handle now (download.message task)
    return { s with
      outstanding := s.outstanding.eraseIdx (pick % s.outstanding.length)
      received := s.received ++ [task]
      downloadCounter := s.downloadCounter + 1 }

end DestState

section Loop

variable (chunkSize : ℕ) (numBytesNotNull retryFailed : Bool) (download : Download)
variable (pick : ℕ → ℕ) (now : ℕ → DateTime)

/-- The first turns of the loop over `0..tasks_len`. -/
def destTurns (s : DestState) : ℕ → Except DestPanic DestState
  | 0 => .ok s
  | i + 1 => do
    let s ← destTurns s i
    let s ← s.refill chunkSize numBytesNotNull retryFailed
    s.receive download (pick i) (now i)

def DestState.idle (tables : Tables) : DestState := ⟨tables, [], [], [], "", 0, 0, []⟩

def downloadToDest (numWorkers : ℕ) (tables : Tables) : Except DestPanic DestState :=
  if chunkSize > numWorkers ∧ numWorkers > 0 then
    let tasksLen := getTotalTasksNum tables.tasks retryFailed
    let tasks := loadChunkInitOf chunkSize tables.tasks retryFailed
    if tasks = [] then .ok (.idle tables)
    else do
      let s ← destTurns chunkSize numBytesNotNull retryFailed download pick now
        ((DestState.idle tables).downloadChunk tasks) tasksLen
      s.updateFromTarballQueue numBytesNotNull
  else .error .numWorkers

end Loop

end NpmFollower.Downloader
