import NpmFollower.PostgresDb.DownloadTarball

/-! # The queue of downloads

The statements of `enqueue_chunk`, the pages in which the downloaders read the
tasks, and what a finished or failed download does to the two tables. A
statement that the database rejects is `none` and changes nothing.
-/

namespace NpmFollower.PostgresDb

open Std

def enqueueChunkSize : ℕ := 2048

def tasksChunkSize : ℕ := 2048

/-- The rows of `download_tasks` under their primary key. -/
abbrev DownloadTasks := BTreeMap String DownloadTask

/-- A1 of `enqueue_chunk`: what is left of the chunk. -/
def filterDownloaded (tarballs : DownloadedTarballs) (chunk : List DownloadTask) :
    List DownloadTask :=
  chunk.filter fun t => t.url ∉ getDownloadedUrlsMatchingTasks tarballs chunk

/-- `on_conflict_do_nothing` on one row, with the number of rows inserted. -/
def insertTask (tasks : DownloadTasks × ℕ) (t : DownloadTask) : DownloadTasks × ℕ :=
  if t.url ∈ tasks.1 then tasks else (tasks.1.insert t.url t, tasks.2 + 1)

/-- A2 of `enqueue_chunk`: the column `url` is a `VARCHAR(2048)`. -/
def insertTasks (tasks : DownloadTasks) (chunk : List DownloadTask) : Option (DownloadTasks × ℕ) :=
  if chunk.all fun t => t.url.length ≤ 2048 then some (chunk.foldl insertTask (tasks, 0)) else none

/-- One row of the upsert of `update_from_tarballs`. The constraints hold of the proposed row and,
after a conflict, of the updated one. -/
def upsertTarball (numBytesNotNull : Bool) (table : DownloadedTarballs) (t : DownloadedTarball) :
    Option DownloadedTarballs :=
  if t.check numBytesNotNull then
    match table[t.tarballUrl]? with
    | none => some (table.insert t.tarballUrl t)
    | some old =>
      if (old.setExcluded t).check numBytesNotNull then
        some (table.insert t.tarballUrl (old.setExcluded t))
      else none
  else none

/-- B2, the first statement of `update_from_tarballs`. One upsert does not touch a row twice. -/
def upsertTarballs (numBytesNotNull : Bool) (table : DownloadedTarballs)
    (tarballs : List DownloadedTarball) : Option DownloadedTarballs :=
  if (tarballs.map (·.tarballUrl)).Nodup then tarballs.foldlM (upsertTarball numBytesNotNull) table
  else none

/-- B3, the second statement of `update_from_tarballs`. -/
def deleteTasks (tasks : DownloadTasks) (urls : List String) : DownloadTasks :=
  urls.foldl (fun tasks url => tasks.erase url) tasks

/-- `num_failures` is an `INTEGER`. -/
def updateFromError (now : DateTime) (tasks : DownloadTasks) (task : DownloadTask)
    (error : DownloadFailed) : Option DownloadTasks :=
  match tasks[task.url]? with
  | none => some tasks
  | some row =>
    if row.numFailures + 1 < 2 ^ 31 then
      some (tasks.insert task.url { row with
        failed := some error
        lastFailure := some now
        numFailures := row.numFailures + 1 })
    else none

def loadChunkInit (tasks : DownloadTasks) (retryFailed : Bool) : List DownloadTask :=
  ((tasks.toList.filter fun row => retryFailed || row.2.failed.isNone).map (·.2)).take tasksChunkSize

def loadChunkNext (tasks : DownloadTasks) (lastUrl : String) (retryFailed : Bool) :
    List DownloadTask :=
  ((tasks.toList.filter fun row =>
    (retryFailed || row.2.failed.isNone) && compare lastUrl row.1 = .lt).map (·.2)).take tasksChunkSize

end NpmFollower.PostgresDb
