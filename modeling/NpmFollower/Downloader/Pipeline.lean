import NpmFollower.Library.Runs
import NpmFollower.Library.Handover
import NpmFollower.PostgresDb.DownloadQueue
import NpmFollower.TarballTransfer.Transfer

/-! # The download pipeline

Any number of processes enqueue chunks of tasks, download tasks or transfer
tarballs. Each of their statements is one step on the two tables, and between
two steps a process may fail or stop.
-/

namespace NpmFollower.Downloader

open Std PostgresDb

/-- How the download of one task ends: with a file of `download_to_dest`, with a blob of
`download_to_cluster`, or with an error of either. -/
inductive Outcome where
  | file (localPath : String) (numBytes : ℤ)
  | blob
  | error (e : DownloadFailed)
deriving DecidableEq

/-- A downloader with the tasks it has selected and the tarballs it has not recorded. -/
structure Downloads where
  tasks : List DownloadTask
  tarballs : List DownloadedTarball
deriving DecidableEq

inductive Process where
  /-- `enqueue_chunk` before A1. -/
  | enqueue (chunk : List DownloadTask)
  /-- Between A1 and A2. -/
  | insert (chunk rest : List DownloadTask)
  /-- `enqueue_chunk` has returned. -/
  | enqueued (chunk : List DownloadTask) (modifyCount : ℕ)
  | download (retryFailed : Bool) (d : Downloads)
  /-- Between B2 and B3. -/
  | delete (retryFailed : Bool) (d : Downloads) (urls : List String)
  /-- The database worker of the transfer, with the keys it has yet to set. -/
  | transfer (keys : List (String × String))
deriving DecidableEq

structure Pipeline where
  tasks : DownloadTasks
  tarballs : DownloadedTarballs
  processes : BTreeMap ℕ Process

inductive Action where
  | enqueueChunk (chunk : List DownloadTask)
  | filter
  | insert
  | startDownload (retryFailed : Bool)
  /-- B1, from the start or after the last URL. -/
  | select (lastUrl : Option String)
  /-- The task at a place of the selected ones ends. -/
  | finish (now : DateTime) (i : ℕ) (outcome : Outcome)
  /-- B2, with as many of the tarballs as the queue held or one job returned. -/
  | record (n : ℕ)
  /-- B3. -/
  | remove
  | startTransfer (afterUrl : String) (limit : ℕ)
  | setKey
  | stop

namespace Pipeline

variable (numBytesNotNull : Bool) (s : Pipeline) (pid : ℕ)

def setProcess (p : Process) : Pipeline := { s with processes := s.processes.insert pid p }

/-- The process ends; the tables stay. -/
def stopProcess : Pipeline := { s with processes := s.processes.erase pid }

/-- The outcome of a task with its statement, if it has one. -/
def finish (retryFailed : Bool) (d : Downloads) (now : DateTime) (i : ℕ) (task : DownloadTask)
    (outcome : Outcome) : Pipeline :=
  let rest := d.tasks.eraseIdx i
  match outcome with
  | .file localPath numBytes =>
    s.setProcess pid (.download retryFailed
      ⟨rest, d.tarballs ++ [.fromTask now task localPath numBytes]⟩)
  | .blob =>
    s.setProcess pid (.download retryFailed
      ⟨rest, d.tarballs ++ [.fromTaskBlob now task task.url none]⟩)
  | .error e =>
    match updateFromError now s.tasks task e with
    | some tasks => { s with tasks }.setProcess pid (.download retryFailed ⟨rest, d.tarballs⟩)
    | none => s.stopProcess pid

/-- A step of one process. A statement that the database rejects ends the process, which expects
it to succeed. -/
def processStep : Option Process → Action → Option Pipeline
  | none, .enqueueChunk chunk =>
    if chunk.length ≤ enqueueChunkSize then some (s.setProcess pid (.enqueue chunk)) else none
  | some (.enqueue chunk), .filter =>
    some (s.setProcess pid (.insert chunk (filterDownloaded s.tarballs chunk)))
  | some (.insert chunk rest), .insert =>
    match insertTasks s.tasks rest with
    | some (tasks, n) => some ({ s with tasks }.setProcess pid (.enqueued chunk n))
    | none => some (s.stopProcess pid)
  | none, .startDownload retryFailed => some (s.setProcess pid (.download retryFailed ⟨[], []⟩))
  | some (.download retryFailed d), .select lastUrl =>
    let page := match lastUrl with
      | none => loadChunkInit s.tasks retryFailed
      | some url => loadChunkNext s.tasks url retryFailed
    some (s.setProcess pid (.download retryFailed ⟨d.tasks ++ page, d.tarballs⟩))
  | some (.download retryFailed d), .finish now i outcome =>
    d.tasks[i]?.map fun task => s.finish pid retryFailed d now i task outcome
  | some (.download retryFailed d), .record n =>
    let queue := d.tarballs.take n
    match upsertTarballs numBytesNotNull s.tarballs queue with
    | some tarballs => some ({ s with tarballs }.setProcess pid
        (.delete retryFailed ⟨d.tasks, d.tarballs.drop n⟩ (queue.map DownloadedTarball.tarballUrl)))
    | none => some (s.stopProcess pid)
  | some (.delete retryFailed d urls), .remove =>
    some ({ s with tasks := deleteTasks s.tasks urls }.setProcess pid (.download retryFailed d))
  | none, .startTransfer afterUrl limit =>
    some (s.setProcess pid
      (.transfer (TarballTransfer.processedTarballs (queryTarballsAfterUrl s.tarballs afterUrl limit))))
  | some (.transfer ((url, name) :: rest)), .setKey =>
    some ({ s with tarballs := setBlobStorageKey s.tarballs url name }.setProcess pid (.transfer rest))
  | some _, .stop => some (s.stopProcess pid)
  | _, _ => none

def step (a : ℕ × Action) : Option Pipeline :=
  s.processStep numBytesNotNull a.1 s.processes[a.1]? a.2

end Pipeline

end NpmFollower.Downloader
