import NpmFollower.PostgresDb.CustomTypes
import NpmFollower.Library.FiniteMap

/-! # Download tasks and downloaded tarballs

The rows of `download_tasks` and `downloaded_tarballs`, the conditions that the
second table imposes on each row, and the statements that read and write it.
-/

namespace NpmFollower.PostgresDb

open Std

inductive DownloadFailed where
  | res (status : UInt16)
  | io
  | badlyFormattedUrl
  | other
deriving DecidableEq

structure DownloadTask where
  url : String
  shasum : Option String
  unpackedSize : Option ℤ
  fileCount : Option ℤ
  integrity : Option String
  signature0Sig : Option String
  signature0Keyid : Option String
  npmSignature : Option String
  queueTime : DateTime
  numFailures : ℤ
  lastFailure : Option DateTime
  failed : Option DownloadFailed
deriving DecidableEq

namespace DownloadTask

/-- A number in the range of `i16`, around which it wraps. -/
def asI16 (n : ℤ) : ℤ := n.bmod (2 ^ 16)

/-- The depth of a URL, less 3 for the `//` and the domain. -/
def urlDepth (url : String) : ℕ :=
  (asI16 (asI16 (url.toList.splitOn '/').length - 3)).toNat

/-- The name of the file for a URL, with the scope of a scoped package in front. -/
def getFilename (url : String) : Except DownloadFailed String :=
  let slashsplit := (url.toList.splitOn '/').map String.ofList
  match slashsplit.getLast? with
  | none => .error .badlyFormattedUrl
  | some baseName =>
    match urlDepth url with
    | 3 => .ok baseName
    | 4 =>
      match slashsplit[3]? with
      | none => .error .badlyFormattedUrl
      | some scope => .ok (scope ++ "-" ++ baseName)
    | _ => .error .badlyFormattedUrl

end DownloadTask

structure DownloadedTarball where
  tarballUrl : String
  downloadedAt : DateTime
  shasum : Option String
  unpackedSize : Option ℤ
  fileCount : Option ℤ
  integrity : Option String
  signature0Sig : Option String
  signature0Keyid : Option String
  npmSignature : Option String
  tgzLocalPath : Option String
  blobStorageKey : Option String
  numBytes : Option ℤ
deriving DecidableEq

namespace DownloadedTarball

def fromTaskHelp (now : DateTime) (task : DownloadTask) (tgzLocalPath blobStorageKey : Option String)
    (numBytes : Option ℤ) : DownloadedTarball where
  tarballUrl := task.url
  downloadedAt := now
  shasum := task.shasum
  unpackedSize := task.unpackedSize
  fileCount := task.fileCount
  integrity := task.integrity
  signature0Sig := task.signature0Sig
  signature0Keyid := task.signature0Keyid
  npmSignature := task.npmSignature
  tgzLocalPath := tgzLocalPath
  blobStorageKey := blobStorageKey
  numBytes := numBytes

def fromTask (now : DateTime) (task : DownloadTask) (localPath : String) (numBytes : ℤ) :
    DownloadedTarball :=
  fromTaskHelp now task (some localPath) none (some numBytes)

def fromTaskBlob (now : DateTime) (task : DownloadTask) (blobKey : String) (numBytes : Option ℤ) :
    DownloadedTarball :=
  fromTaskHelp now task none (some blobKey) numBytes

@[simp] theorem fromTask_tarballUrl (now : DateTime) (task : DownloadTask) (path : String) (n : ℤ) :
    (fromTask now task path n).tarballUrl = task.url :=
  rfl

@[simp] theorem fromTaskBlob_tarballUrl (now : DateTime) (task : DownloadTask) (key : String)
    (n : Option ℤ) : (fromTaskBlob now task key n).tarballUrl = task.url :=
  rfl

/-- `check_at_least_one_storage`, and `NOT NULL` on `num_bytes`. The migration declares the second
and the schema that the crate is compiled with does not, so the table comes with a flag for it. -/
def check (numBytesNotNull : Bool) (t : DownloadedTarball) : Bool :=
  (t.tgzLocalPath.isSome || t.blobStorageKey.isSome) && (!numBytesNotNull || t.numBytes.isSome)

/-- The columns that `on_conflict(tarball_url).do_update()` sets. -/
def setExcluded (old excluded : DownloadedTarball) : DownloadedTarball :=
  { old with
    tarballUrl := excluded.tarballUrl
    downloadedAt := excluded.downloadedAt
    shasum := excluded.shasum
    unpackedSize := excluded.unpackedSize
    fileCount := excluded.fileCount
    integrity := excluded.integrity
    signature0Sig := excluded.signature0Sig
    signature0Keyid := excluded.signature0Keyid
    npmSignature := excluded.npmSignature
    tgzLocalPath := excluded.tgzLocalPath }

@[simp] theorem setExcluded_tarballUrl (old excluded : DownloadedTarball) :
    (old.setExcluded excluded).tarballUrl = excluded.tarballUrl :=
  rfl

@[simp] theorem setExcluded_tgzLocalPath (old excluded : DownloadedTarball) :
    (old.setExcluded excluded).tgzLocalPath = excluded.tgzLocalPath :=
  rfl

@[simp] theorem setExcluded_blobStorageKey (old excluded : DownloadedTarball) :
    (old.setExcluded excluded).blobStorageKey = old.blobStorageKey :=
  rfl

end DownloadedTarball

/-- The rows of `downloaded_tarballs` under their primary key. -/
abbrev DownloadedTarballs := BTreeMap String DownloadedTarball

variable (table : DownloadedTarballs)

def getDownloadedUrlsMatchingTasks (chunk : List DownloadTask) : List String :=
  table.keys.filter fun url => url ∈ chunk.map (·.url)

def queryTarballsAfterUrl (afterUrl : String) (limit : ℕ) : List DownloadedTarball :=
  ((table.toList.filter fun row => compare afterUrl row.1 = .lt).map (·.2)).take limit

def queryFirstTarballByUrl : Option DownloadedTarball :=
  (table.toList.map (·.2)).head?

def setBlobStorageKey (tbUrl blobKey : String) : DownloadedTarballs :=
  match table[tbUrl]? with
  | some t => table.insert tbUrl { t with blobStorageKey := some blobKey }
  | none => table

theorem getElem?_setBlobStorageKey (tbUrl blobKey url : String) :
    (setBlobStorageKey table tbUrl blobKey)[url]? =
      table[url]?.map fun t => if tbUrl = url then { t with blobStorageKey := some blobKey } else t := by
  rw [setBlobStorageKey]
  split
  next t ht =>
    rw [FiniteMap.getElem?_insert]
    by_cases h : tbUrl = url
    · subst h
      simp [ht]
    · simp [h]
  next hnone =>
    by_cases h : tbUrl = url
    · subst h
      simp [hnone]
    · simp [h]

end NpmFollower.PostgresDb
