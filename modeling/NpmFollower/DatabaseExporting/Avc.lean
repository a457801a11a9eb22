import Mathlib

/-! # The archive version control

`avc.py` keeps two databases beside a git repository. The global one holds the
commits, their changes and the `main` ref; the local one holds the staged
changes and `HEAD`. A commit's bytes go to blob files, which the operations that
`build_git_commit` returns say how to fill.
-/

namespace NpmFollower.DatabaseExporting

abbrev Bytes := List UInt8

/-- A path by its parts: `a/./b` is `["a", ".", "b"]`. -/
structure Path where
  absolute : Bool
  parts : List String
  deriving DecidableEq, Repr

namespace Path

def isabs (path : Path) : Bool := path.absolute

def join (base path : Path) : Path :=
  if path.absolute then path else ⟨base.absolute, base.parts ++ path.parts⟩

/-- The loop of `normpath`, with the parts kept so far in reverse. -/
def normparts (absolute : Bool) : List String → List String → List String
  | kept, [] => kept.reverse
  | kept, part :: parts =>
    if part = "" ∨ part = "." then normparts absolute kept parts
    else if part ≠ ".." ∨ (absolute = false ∧ kept = []) ∨ kept.head? = some ".." then
      normparts absolute (part :: kept) parts
    else normparts absolute kept.tail parts

def normpath (path : Path) : Path := ⟨path.absolute, normparts path.absolute [] path.parts⟩

end Path

/-- What `os.stat` finds at a path. -/
inductive Stat where
  | missing
  | other
  | regular (content : Bytes)

abbrev Disk := Path → Stat

inductive AvcError where
  | exception (text : String)
  | assertionError
  | fileNotFoundError
  | typeError
  | integrityError
  | endless
  deriving DecidableEq, Repr

abbrev CommitId := String

/-- The name `id[:2]/id-blob-i`, kept as its two parts. -/
structure BlobName where
  commitId : CommitId
  blobId : ℕ
  deriving DecidableEq, Repr

inductive ChangeType where
  | create
  | append
  deriving DecidableEq, Repr

structure StagedChange where
  path : Path
  type : ChangeType
  startOffset : ℤ
  numBytes : ℤ
  backingPath : Path
  backingOffset : ℤ
  deriving DecidableEq, Repr

structure CommitChange where
  commitId : CommitId
  batchId : ℕ
  path : Path
  type : ChangeType
  startOffset : ℤ
  numBytes : ℤ
  blobName : BlobName
  blobOffset : ℤ
  deriving DecidableEq, Repr

structure Commit where
  id : CommitId
  parentId : Option CommitId
  deriving DecidableEq, Repr

/-- The tables of `global_state.db`; the latest commit stands first. -/
structure GlobalDb where
  commits : List Commit
  commitChanges : List CommitChange
  main : Option CommitId
  deriving DecidableEq, Repr

/-- The tables of `local_state.db`. -/
structure LocalDb where
  stagedChanges : List StagedChange
  head : Option CommitId
  deriving DecidableEq, Repr

structure Avc where
  dataToplevel : Path
  globalDb : GlobalDb
  localDb : LocalDb
  deriving DecidableEq, Repr

/-- The two databases as `initialize_db` leaves them. -/
def Avc.init (dataToplevel : Path) : Avc := ⟨dataToplevel, ⟨[], [], none⟩, ⟨[], none⟩⟩

/-! ## Committed sizes -/

/-- The parent of a commit, in a row that `fetchone` may not find. -/
def GlobalDb.getParent (db : GlobalDb) (commitId : CommitId) : Except AvcError (Option CommitId) :=
  match db.commits.find? (·.id = commitId) with
  | none => .error .typeError
  | some c => .ok c.parentId

/-- The changes of one path in one commit. -/
def GlobalDb.changesOf (db : GlobalDb) (commitId : CommitId) (path : Path) : List CommitChange :=
  db.commitChanges.filter fun c => c.commitId = commitId ∧ c.path = path

/-- The walk from a commit to its ancestors, until one has changed the path. -/
def GlobalDb.committedFileSize (db : GlobalDb) (path : Path) :
    ℕ → Option CommitId → Except AvcError (Option ℤ)
  | _, none => .ok none
  | 0, some _ => .error .endless
  | fuel + 1, some commitId =>
    match (db.changesOf commitId path).argmax (·.batchId) with
    | some row => .ok (some (row.startOffset + row.numBytes))
    | none =>
      match db.getParent commitId with
      | .error e => .error e
      | .ok parent => db.committedFileSize path fuel parent

/-- No walk along the commits is longer than their table. -/
def Avc.getCommittedFileSize (avc : Avc) (path : Path) : Except AvcError (Option ℤ) :=
  avc.globalDb.committedFileSize path avc.globalDb.commits.length avc.localDb.head

/-! ## Staging -/

/-- The checks of `add` on its arguments, and the number of bytes to add. -/
def Avc.requestedBytes (avc : Avc) (disk : Disk) (path : Path) (numBytes : Option ℤ) :
    Except AvcError ℤ :=
  if avc.localDb.head ≠ avc.globalDb.main then .error (.exception "HEAD is not equal to main")
  else if path.isabs then .error (.exception "Absolute path")
  else
    match disk ((avc.dataToplevel.join path).normpath) with
    | .missing => .error .fileNotFoundError
    | .other => .error (.exception "Not a regular file")
    | .regular content =>
      match numBytes with
      | none => .ok content.length
      | some n =>
        if n > content.length then .error (.exception "Not enough bytes") else .ok n

/-- `UPDATE staged_changes SET num_bytes = ? WHERE path = ?`. -/
def setNumBytes (path : Path) (numBytes : ℤ) (rows : List StagedChange) : List StagedChange :=
  rows.map fun row => if row.path = path then { row with numBytes := numBytes } else row

/-- What `add` does to the staged changes, given the committed size of the path. -/
def stage (path backingPath : Path) (numBytes : ℤ) (committed : Option ℤ)
    (rows : List StagedChange) : Except AvcError (List StagedChange) :=
  match committed, rows.find? (·.path = path) with
  | none, some row =>
    if row.type ≠ .create ∨ row.startOffset ≠ 0 then .error .assertionError
    else .ok (setNumBytes path (max row.numBytes numBytes) rows)
  | none, none => .ok (rows ++ [⟨path, .create, 0, numBytes, backingPath, 0⟩])
  | some size, some row =>
    if row.type ≠ .append ∨ row.startOffset ≠ size then .error .assertionError
    else .ok (setNumBytes path (max row.numBytes (numBytes - size)) rows)
  | some size, none =>
    -- a size with nothing new is only printed: the row is staged all the same
    .ok (rows ++ [⟨path, .append, size, numBytes - size, backingPath, size⟩])

def Avc.withStaged (avc : Avc) (rows : List StagedChange) : Avc :=
  { avc with localDb := { avc.localDb with stagedChanges := rows } }

def Avc.add (avc : Avc) (disk : Disk) (path : Path) (numBytes : Option ℤ) : Except AvcError Avc := do
  let requested ← avc.requestedBytes disk path numBytes
  let committed ← avc.getCommittedFileSize path
  let rows ← stage path (avc.dataToplevel.join path).normpath requested committed
    avc.localDb.stagedChanges
  return avc.withStaged rows

def Avc.resetStaged (avc : Avc) : Avc := avc.withStaged []

/-! ## Building a commit -/

structure ReadSource where
  localPath : Path
  offset : ℤ
  numBytes : ℤ
  deriving DecidableEq, Repr

/-- Paths in the repository: a blob's, under `.avc/blobs`, and the database's. -/
inductive RepoPath where
  | blob (name : BlobName)
  | globalStateDb
  deriving DecidableEq, Repr

inductive VirtualAddOperation where
  | concatenating (repoPath : RepoPath) (sources : List ReadSource)
  | direct (repoPath localPath : RepoPath)
  deriving DecidableEq, Repr

section Chunks

variable (maxSize : ℤ)

/-- The first `MAX_SIZE` bytes of a change that is larger. -/
def StagedChange.cut (s : StagedChange) : StagedChange :=
  if s.numBytes > maxSize then { s with numBytes := maxSize } else s

/-- What is left of a change after its first `MAX_SIZE` bytes, as an append. -/
def StagedChange.remainder (s : StagedChange) (startOffset : ℤ) : StagedChange :=
  ⟨s.path, .append, startOffset, s.numBytes - maxSize, s.backingPath, s.backingOffset + maxSize⟩

/-- Step 3a: the append that a create over `MAX_SIZE` leaves. -/
def createRemainder (s : StagedChange) : Option StagedChange :=
  if s.numBytes > maxSize then some (s.remainder maxSize maxSize) else none

/-- Step 3b: the loop over a list that grows at its end. -/
def splitAppends : ℕ → List StagedChange → List StagedChange
  | 0, changes => changes
  | _ + 1, [] => []
  | fuel + 1, s :: changes =>
    if s.numBytes > maxSize then
      s.cut maxSize :: splitAppends fuel (changes ++ [s.remainder maxSize (s.startOffset + maxSize)])
    else s :: splitAppends fuel changes

/-- A bound on the turns of the loop of step 3b. -/
def splitFuel (changes : List StagedChange) : ℕ := (changes.map fun s => s.numBytes.toNat + 1).sum

end Chunks

/-- The variables of steps 3c to 3e. -/
structure Packing where
  blobId : ℕ
  currentBlobName : Option BlobName
  currentBlobSize : ℤ
  currentBlobReadSources : List ReadSource
  requiredGitOperations : List VirtualAddOperation
  allCommitChanges : List CommitChange
  currentBatchId : ℕ
  deriving DecidableEq, Repr

def Packing.empty : Packing := ⟨0, none, 0, [], [], [], 0⟩

section Pack

variable (maxSize : ℤ) (commitId : CommitId)

def StagedChange.readSource (s : StagedChange) : ReadSource :=
  ⟨s.backingPath, s.backingOffset, s.numBytes⟩

def StagedChange.commitChange (s : StagedChange) (batchId : ℕ) (type : ChangeType) (blobName : BlobName)
    (blobOffset : ℤ) : CommitChange :=
  ⟨commitId, batchId, s.path, type, s.startOffset, s.numBytes, blobName, blobOffset⟩

/-- Step 3d, for one create: a blob of its own. -/
def packCreate (p : Packing) (s : StagedChange) : Except AvcError Packing :=
  if s.startOffset ≠ 0 ∨ s.numBytes > maxSize then .error .assertionError
  else
    let blobName : BlobName := ⟨commitId, p.blobId⟩
    .ok { p with
      blobId := p.blobId + 1
      allCommitChanges := p.allCommitChanges ++
        [s.commitChange commitId p.currentBatchId .create blobName 0]
      requiredGitOperations := p.requiredGitOperations ++
        [.concatenating (.blob blobName) [s.readSource]] }

/-- A new blob for the appends that follow. -/
def Packing.openBlob (p : Packing) : Packing :=
  { p with
    blobId := p.blobId + 1
    currentBlobName := some ⟨commitId, p.blobId⟩
    currentBlobSize := 0
    currentBlobReadSources := [] }

/-- The operation that fills the current blob. -/
def Packing.closeBlob (p : Packing) (blobName : BlobName) : Packing :=
  { p with
    requiredGitOperations := p.requiredGitOperations ++
      [.concatenating (.blob blobName) p.currentBlobReadSources] }

/-- The blob that has room for the next append. -/
def Packing.makeRoom (p : Packing) (s : StagedChange) : Except AvcError Packing :=
  match p.currentBlobName with
  | none => .ok (p.openBlob commitId)
  | some blobName =>
    if p.currentBlobSize + s.numBytes > maxSize then
      if p.currentBlobSize ≤ 0 ∨ p.currentBlobReadSources = [] then .error .assertionError
      else .ok ((p.closeBlob blobName).openBlob commitId)
    else .ok p

/-- An append, written behind what the current blob holds. -/
def Packing.write (p : Packing) (blobName : BlobName) (s : StagedChange) : Packing :=
  { p with
    allCommitChanges := p.allCommitChanges ++
      [s.commitChange commitId p.currentBatchId .append blobName p.currentBlobSize]
    currentBlobReadSources := p.currentBlobReadSources ++ [s.readSource]
    currentBlobSize := p.currentBlobSize + s.numBytes
    currentBatchId := p.currentBatchId + 1 }

/-- Step 3e, for one append. -/
def packAppend (p : Packing) (s : StagedChange) : Except AvcError Packing :=
  match p.makeRoom maxSize commitId s with
  | .error e => .error e
  | .ok p' =>
    match p'.currentBlobName with
    | none => .error .assertionError
    | some blobName => .ok (p'.write commitId blobName s)

/-- The batch of the creates ends before the appends begin. -/
def Packing.endCreates (p : Packing) (creates : List StagedChange) : Packing :=
  if creates = [] then p else { p with currentBatchId := p.currentBatchId + 1 }

/-- The last blob of appends is filled as well. -/
def Packing.finish (p : Packing) : Packing :=
  match p.currentBlobName with
  | none => p
  | some blobName => if p.currentBlobReadSources = [] then p else p.closeBlob blobName

/-- Steps 3a to 3e. -/
def buildChanges (staged : List StagedChange) : Except AvcError Packing := do
  let creates := staged.filter (·.type = .create)
  if creates.any (·.startOffset ≠ 0) then .error .assertionError
  let appends := staged.filter (·.type = .append) ++ creates.filterMap (createRemainder maxSize)
  let creates := creates.map (·.cut maxSize)
  let appends := splitAppends maxSize (splitFuel appends) appends
  let p ← creates.foldlM (packCreate maxSize commitId) Packing.empty
  let p ← appends.foldlM (packAppend maxSize commitId) (p.endCreates creates)
  return p.finish

end Pack

def databaseOperation : VirtualAddOperation := .direct .globalStateDb .globalStateDb

/-- Steps 4 and 5, with the changes computed. -/
def Avc.recordCommit (avc : Avc) (commitId : CommitId) (changes : List CommitChange) :
    Except AvcError Avc :=
  if avc.globalDb.commits.any (·.id = commitId) then .error .integrityError
  else .ok { avc with
    globalDb :=
      { commits := ⟨commitId, avc.localDb.head⟩ :: avc.globalDb.commits
        commitChanges := avc.globalDb.commitChanges ++ changes
        main := some commitId }
    localDb := ⟨[], some commitId⟩ }

/-- The commit id is the digest of the parent, the time, the host and the changes. -/
def Avc.buildGitCommit (maxSize : ℤ) (avc : Avc) (commitId : CommitId) (dryRun : Bool) :
    Except AvcError (List VirtualAddOperation × Avc) := do
  if avc.localDb.head ≠ avc.globalDb.main then .error (.exception "HEAD is not equal to main")
  if avc.localDb.stagedChanges = [] then return ([], avc)
  let p ← buildChanges maxSize commitId avc.localDb.stagedChanges
  let avc' ← if dryRun then .ok avc else avc.recordCommit commitId p.allCommitChanges
  return (p.requiredGitOperations ++ [databaseOperation], avc')

/-- `MAX_SIZE`. -/
def deployedMaxSize : ℤ := 48000000000

def Avc.abortLastCommit (avc : Avc) : Except AvcError Avc :=
  match avc.localDb.head with
  | none => .ok avc
  | some commitId =>
    match avc.globalDb.getParent commitId with
    | .error e => .error e
    | .ok parent =>
      .ok { avc with
        globalDb :=
          { commits := avc.globalDb.commits.filter (·.id ≠ commitId)
            commitChanges := avc.globalDb.commitChanges.filter (·.commitId ≠ commitId)
            main := parent }
        localDb := { avc.localDb with head := parent } }

end NpmFollower.DatabaseExporting
