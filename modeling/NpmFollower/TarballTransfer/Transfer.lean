import NpmFollower.PostgresDb.DownloadTarball
import NpmFollower.Library.Runs

/-! # The transfer of tarballs to the blob store

One process reads the table of tarballs page by page and feeds a channel, from
which workers take pages, transfer their files and pass the keys to the one that
writes them into the table. The reader saves its place after each page.
-/

namespace NpmFollower.TarballTransfer

open Std PostgresDb

/-- `Path::file_name`: empty and `.` components do not count, and `..` is no name. -/
def fileName (path : String) : Option String :=
  match ((path.toList.splitOn '/').filter fun c => c ≠ [] ∧ c ≠ ['.']).getLast? with
  | none => none
  | some c => if c = ['.', '.'] then none else some (String.ofList c)

/-- The tarballs of a page that are transferred, with their file names. -/
def processedTarballs (tarballs : List DownloadedTarball) : List (String × String) :=
  tarballs.filterMap fun t =>
    (t.tgzLocalPath.bind fileName).map fun filename => (t.tarballUrl, filename)

def pageSize : ℕ := 256

/-- The reader, with its `last_url` and `queued_up_to`. -/
inductive Reader where
  | down
  /-- At the top of the loop. -/
  | fetch (lastUrl : String) (queuedUpTo : ℕ)
  | send (page : List DownloadedTarball) (lastUrl : String) (queuedUpTo : ℕ)
  /-- `set_tarball_transfer_last` writes the URL and then the number. -/
  | saveUrl (lastUrl : String) (queuedUpTo : ℕ)
  | saveSeq (lastUrl : String) (queuedUpTo : ℕ)
  | finished

inductive Worker where
  | transfer (tarballs : List DownloadedTarball)
  | send (processed : List (String × String))

/-- A worker that has no entry waits for a page. -/
structure Transfer where
  tarballs : DownloadedTarballs
  tarballTransferLastUrl : Option String
  tarballTransferLastSeq : Option ℕ
  /-- The keys that the blob store has stored. -/
  stored : List String
  reader : Reader
  /-- The reader's first tarball, until it is taken. -/
  firstEverTb : Option DownloadedTarball
  pages : List (List DownloadedTarball)
  workers : BTreeMap ℕ Worker
  updates : List (List (String × String))
  /-- What the database worker has yet to write of its last batch. -/
  editing : List (String × String)

inductive Action where
  | run
  | fetch
  | send
  | saveUrl
  | saveSeq
  | take (id : ℕ)
  /-- The job fails after it has stored some of the files, and the worker tries again. -/
  | retry (id n : ℕ)
  | transfer (id : ℕ)
  | pass (id : ℕ)
  | receive
  | setKey
  | crash

namespace Transfer

variable (numWorkers : ℕ) (s : Transfer)

/-- The place to start from. -/
def queryTarballTransferLast : Option (String × ℕ) :=
  match s.tarballTransferLastUrl, s.tarballTransferLastSeq with
  | some url, some seq => some (url, seq)
  | _, _ => none

def run : Option Transfer :=
  match s.reader, queryFirstTarballByUrl s.tarballs with
  | .down, some first =>
    let last := s.queryTarballTransferLast.getD (first.tarballUrl, 0)
    some { s with reader := .fetch last.1 last.2, firstEverTb := some first }
  | _, _ => none

def fetch : Option Transfer :=
  match s.reader with
  | .fetch lastUrl queuedUpTo =>
    let after := queryTarballsAfterUrl s.tarballs lastUrl pageSize
    -- the first time, the first tarball is taken and added
    let page := if queuedUpTo = 0 then s.firstEverTb.map fun first => first :: after else some after
    page.map fun page =>
      { s with
        reader := match page.getLast? with
          | none => .finished
          | some last => .send page last.tarballUrl (queuedUpTo + page.length)
        firstEverTb := if queuedUpTo = 0 then none else s.firstEverTb }
  | _ => none

def send : Option Transfer :=
  match s.reader with
  | .send page lastUrl queuedUpTo =>
    if s.pages.length < numWorkers then
      some { s with pages := s.pages ++ [page], reader := .saveUrl lastUrl queuedUpTo }
    else none
  | _ => none

def saveUrl : Option Transfer :=
  match s.reader with
  | .saveUrl lastUrl queuedUpTo =>
    some { s with tarballTransferLastUrl := some lastUrl, reader := .saveSeq lastUrl queuedUpTo }
  | _ => none

def saveSeq : Option Transfer :=
  match s.reader with
  | .saveSeq lastUrl queuedUpTo =>
    some { s with
      tarballTransferLastSeq := some queuedUpTo, reader := .fetch lastUrl queuedUpTo }
  | _ => none

def take (id : ℕ) : Option Transfer :=
  match s.workers[id]?, s.pages with
  | none, page :: rest =>
    if id < numWorkers then
      some { s with pages := rest, workers := s.workers.insert id (.transfer page) }
    else none
  | _, _ => none

def retry (id n : ℕ) : Option Transfer :=
  match s.workers[id]? with
  | some (.transfer page) =>
    some { s with stored := s.stored ++ ((processedTarballs page).take n).map (·.2) }
  | _ => none

def transfer (id : ℕ) : Option Transfer :=
  match s.workers[id]? with
  | some (.transfer page) =>
    let processed := processedTarballs page
    some { s with
      stored := s.stored ++ processed.map (·.2), workers := s.workers.insert id (.send processed) }
  | _ => none

def pass (id : ℕ) : Option Transfer :=
  match s.workers[id]? with
  | some (.send processed) =>
    if s.updates.length < numWorkers then
      some { s with updates := s.updates ++ [processed], workers := s.workers.erase id }
    else none
  | _ => none

def receive : Option Transfer :=
  match s.editing, s.updates with
  | [], batch :: rest => some { s with updates := rest, editing := batch }
  | _, _ => none

def setKey : Option Transfer :=
  match s.editing with
  | (url, name) :: rest =>
    some { s with tarballs := setBlobStorageKey s.tarballs url name, editing := rest }
  | [] => none

/-- The process dies; the database and the store stay. -/
def crash : Transfer :=
  { s with reader := .down, firstEverTb := none, pages := [], workers := ∅, updates := [], editing := [] }

def step : Action → Option Transfer
  | .run => s.run
  | .fetch => s.fetch
  | .send => s.send numWorkers
  | .saveUrl => s.saveUrl
  | .saveSeq => s.saveSeq
  | .take id => s.take numWorkers id
  | .retry id n => s.retry id n
  | .transfer id => s.transfer id
  | .pass id => s.pass numWorkers id
  | .receive => s.receive
  | .setKey => s.setKey
  | .crash => some s.crash

/-- Before the first run. The keys that the table already has are in the store. -/
def start (tarballs : DownloadedTarballs) : Transfer where
  tarballs := tarballs
  tarballTransferLastUrl := none
  tarballTransferLastSeq := none
  stored := tarballs.toList.filterMap fun row => row.2.blobStorageKey
  reader := .down
  firstEverTb := none
  pages := []
  workers := ∅
  updates := []
  editing := []

end Transfer

end NpmFollower.TarballTransfer
