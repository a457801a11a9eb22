import NpmFollower.DatabaseExporting.CommitOperations
import NpmFollower.DatabaseExporting.ConcatenatedReads

/-! # Uploading the operations

`avc_hf.py` commits the operations of `git_operations.json` to the remote repository in
chunks of four. It writes down every operation that is completed, and skips those at
its next start.
-/

namespace NpmFollower.DatabaseExporting

/-- `chunked(ops, 4)`. -/
def chunked {α : Type} : List α → List (List α)
  | a :: b :: c :: d :: rest => [a, b, c, d] :: chunked rest
  | [] => []
  | l => [l]

/-- No read of the source is short. -/
def ReadSource.fits (disk : Disk) (s : ReadSource) : Bool :=
  0 ≤ s.offset && 0 ≤ s.numBytes && match disk s.localPath with
    | .regular content => s.offset + s.numBytes ≤ content.length
    | _ => false

theorem ReadSource.fits_iff {disk : Disk} {s : ReadSource} : s.fits disk ↔ s.Readable disk := by
  rw [ReadSource.fits]
  constructor
  · intro h
    rw [Bool.and_eq_true, Bool.and_eq_true] at h
    obtain ⟨⟨hoffset, hbytes⟩, hfile⟩ := h
    refine ⟨by simpa using hoffset, by simpa using hbytes, ?_⟩
    split at hfile
    · next content hcontent => exact ⟨content, hcontent, by simpa using hfile⟩
    · cases hfile
  · rintro ⟨hoffset, hbytes, content, hcontent, hle⟩
    simp [hoffset, hbytes, hcontent, hle]

inductive RemoteFile where
  | bytes (content : Bytes)
  | database (db : GlobalDb)

abbrev Remote := RepoPath → Option RemoteFile

/-- Where an upload run stands. `filteredOut` are the operations that `load_operations` skipped. -/
inductive Uploader where
  | idle
  | running (filteredOut : List VirtualAddOperation) (chunks : List (List VirtualAddOperation))
  /-- A chunk is on the remote and not yet in `completed_git_operations.json`. -/
  | committed (filteredOut chunk : List VirtualAddOperation)
      (chunks : List (List VirtualAddOperation))
  /-- The last run has ended normally. -/
  | ended

/-- The archive with its files and the remote repository. -/
structure Archive where
  avc : Avc
  disk : Disk
  gitOperations : Option (List VirtualAddOperation)
  completedOps : List VirtualAddOperation
  remote : Remote
  uploader : Uploader
  /-- The operations of the last call that has recorded a commit. -/
  lastCommit : List VirtualAddOperation
  /-- A commit has been recorded since the database was last uploaded. -/
  outdated : Bool
  uploaded : List VirtualAddOperation
  commitIds : List CommitId

inductive ArchiveAction where
  | write (path : Path) (bytes : Bytes)
  | add (path : Path) (numBytes : Option ℤ)
  | resetStaged
  | buildGitCommit (commitId : CommitId) (dryRun : Bool)
  | loadOperations
  | runChunk
  | recordChunk
  | endRun
  | kill

/-- The files only grow. -/
def Disk.append (disk : Disk) (path : Path) (bytes : Bytes) : Disk :=
  match disk path with
  | .missing => Function.update disk path (.regular bytes)
  | .other => disk
  | .regular content => Function.update disk path (.regular (content ++ bytes))

namespace VirtualAddOperation

/-- The reader of `build_hf_operation` asserts that there are sources and that none is short. -/
def uploadable (disk : Disk) : VirtualAddOperation → Bool
  | .concatenating _ sources => sources ≠ [] && sources.all (ReadSource.fits disk)
  | .direct _ _ => true

/-- What the remote has of an operation after it was committed. -/
def file (disk : Disk) (db : GlobalDb) : VirtualAddOperation → RemoteFile
  | .concatenating _ sources => .bytes (concatenation disk sources)
  | .direct _ _ => .database db

end VirtualAddOperation

/-- `create_commit`. -/
def Remote.commit (remote : Remote) (disk : Disk) (db : GlobalDb)
    (chunk : List VirtualAddOperation) : Remote :=
  chunk.foldl (fun remote op => Function.update remote op.repoPath (some (op.file disk db))) remote

namespace Archive

variable (maxSize : ℤ)

def initial (avc : Avc) (disk : Disk) : Archive where
  avc := avc
  disk := disk
  gitOperations := none
  completedOps := []
  remote _ := none
  uploader := .idle
  lastCommit := []
  outdated := false
  uploaded := []
  commitIds := []

/-- No process of `avc_hf` is at work. -/
def Quiet (s : Archive) : Prop := s.uploader matches .idle | .ended

instance (s : Archive) : Decidable s.Quiet := by
  unfold Quiet
  split <;> infer_instance

/-- A call that fails, or finds nothing staged, writes no operations. -/
def build (s : Archive) (commitId : CommitId) (dryRun : Bool) : Archive :=
  match s.avc.buildGitCommit maxSize commitId dryRun with
  | .error _ => s
  | .ok ([], _) => s
  | .ok (ops, avc) =>
    { s with
      avc
      gitOperations := some ops
      uploader := .idle
      lastCommit := if dryRun then s.lastCommit else ops
      outdated := s.outdated || !dryRun
      commitIds := commitId :: s.commitIds }

def loadOperations (s : Archive) (operations : List VirtualAddOperation) : Archive :=
  let filteredOutOps := operations.filter (· ∈ s.completedOps)
  let remainingOps := operations.filter (· ∉ s.completedOps)
  -- `main` raises on a path that stands there twice
  if (remainingOps.map VirtualAddOperation.repoPath).Nodup then
    { s with uploader := .running filteredOutOps (chunked remainingOps) }
  else { s with uploader := .idle }

def runChunk (s : Archive) (filteredOut chunk : List VirtualAddOperation)
    (chunks : List (List VirtualAddOperation)) : Archive :=
  if chunk.all (VirtualAddOperation.uploadable s.disk) then
    { s with
      remote := s.remote.commit s.disk s.avc.globalDb chunk
      uploader := .committed filteredOut chunk chunks
      outdated := s.outdated && databaseOperation ∉ chunk
      uploaded := s.uploaded ++ chunk }
  else { s with uploader := .idle }

def step (s : Archive) : ArchiveAction → Option Archive
  | .write path bytes => some { s with disk := s.disk.append path bytes }
  | .add path numBytes => (s.avc.add s.disk path numBytes).toOption.map fun avc => { s with avc }
  | .resetStaged => some { s with avc := s.avc.resetStaged }
  | .buildGitCommit commitId dryRun =>
    -- the id is the digest of a text with the time in it, so no two calls have the same
    if s.Quiet ∧ commitId ∉ s.commitIds then some (s.build maxSize commitId dryRun) else none
  | .loadOperations =>
    if s.Quiet then s.gitOperations.map s.loadOperations else none
  | .runChunk =>
    match s.uploader with
    | .running filteredOut (chunk :: chunks) => some (s.runChunk filteredOut chunk chunks)
    | _ => none
  | .recordChunk =>
    match s.uploader with
    | .committed filteredOut chunk chunks =>
      some { s with
        completedOps := s.completedOps ++ chunk
        uploader := .running filteredOut chunks }
    | _ => none
  | .endRun =>
    match s.uploader with
    | .running _ [] => some { s with uploader := .ended }
    | _ => none
  | .kill => some { s with uploader := .idle }

/-- The remote has the blobs of the last commit and the database after it. -/
structure Complete (s : Archive) : Prop where
  blobs : ∀ path sources, .concatenating path sources ∈ s.lastCommit →
    s.remote path = some (.bytes (concatenation s.disk sources))
  database : s.remote .globalStateDb = some (.database s.avc.globalDb)

end Archive

end NpmFollower.DatabaseExporting
