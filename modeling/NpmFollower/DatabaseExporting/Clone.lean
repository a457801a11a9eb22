import NpmFollower.DatabaseExporting.Avc

/-! # A clone of the archive

`fast_forward` applies the commits from `HEAD` to `main` in a clone. The plan for one
commit is made from its last change to its first: a create moves its blob file, an append
copies a part of its blob file, and a blob file of appends is deleted after the last of
them. The plan is then carried out on the files, and what is done before an exception stays.
-/

namespace NpmFollower.DatabaseExporting

inductive CloneError where
  | avc (e : AvcError)
  | notADirectoryError
  | isADirectoryError
  | valueError
  deriving DecidableEq, Repr

/-! ## Files -/

/-- What stands at a path; a directory has a size as well. -/
inductive Node where
  | directory (size : ℕ)
  | file (content : Bytes)
  deriving DecidableEq, Repr

def Node.size : Node → ℕ
  | .directory size => size
  | .file content => content.length

def Node.isDirectory : Node → Bool
  | .directory _ => true
  | .file _ => false

/-- The files by their normal paths. -/
abbrev FileTree := Path → Option Node

namespace Path

/-- The directories on the way to a path. -/
def leading (path : Path) : List Path :=
  (List.range path.parts.length).map fun i => ⟨path.absolute, path.parts.take i⟩

/-- Every part of the path goes one directory down. -/
def Plain (path : Path) : Prop := ∀ part ∈ path.parts, part ≠ "" ∧ part ≠ "." ∧ part ≠ ".."

end Path

namespace FileTree

variable (tree : FileTree)

def isDirectory (path : Path) : Bool := (tree path).any Node.isDirectory

/-- What keeps the system from reaching a path. -/
def blocked (path : Path) : Option CloneError :=
  path.leading.findSome? fun directory =>
    match tree directory.normpath with
    | none => some (.avc .fileNotFoundError)
    | some (.file _) => some .notADirectoryError
    | some (.directory _) => none

def get (path : Path) : Except CloneError Node :=
  match tree.blocked path, tree path.normpath with
  | some e, _ => .error e
  | none, none => .error (.avc .fileNotFoundError)
  | none, some node => .ok node

def getsize (path : Path) : Except CloneError ℕ := (tree.get path).map Node.size

def read (path : Path) : Except CloneError Bytes :=
  match tree.get path with
  | .error e => .error e
  | .ok (.directory _) => .error .isADirectoryError
  | .ok (.file content) => .ok content

/-- `os.rename` of a file, which replaces a file at its destination. -/
def rename (src dst : Path) : Except CloneError FileTree := do
  let content ← tree.read src
  match tree.blocked dst with
  | some e => .error e
  | none =>
    if tree.isDirectory dst.normpath then .error .isADirectoryError
    else
      .ok (Function.update (Function.update tree src.normpath none) dst.normpath
        (some (.file content)))

/-- `os.remove`. -/
def remove (path : Path) : Except CloneError FileTree := do
  let _ ← tree.read path
  return Function.update tree path.normpath none

/-- `append_bytes`, with its two assertions. -/
def appendBytes (src : Path) (srcOffset numBytes : ℤ) (dst : Path) (dstOffset : ℤ) :
    Except CloneError FileTree := do
  let currSize ← tree.getsize dst
  if dstOffset ≠ currSize then .error (.avc .assertionError)
  let content ← tree.read src
  if srcOffset < 0 then .error .valueError
  let data := (content.drop srcOffset.toNat).take numBytes.toNat
  if data.length ≠ numBytes then .error (.avc .assertionError)
  let old ← tree.read dst
  return Function.update tree dst.normpath (some (.file (old ++ data)))

/-- A file that `git` brings, in directories that it makes where there are none. -/
def put (path : Path) (content : Bytes) : FileTree := fun p =>
  if p = path.normpath then some (.file content)
  else if p ∈ path.leading.map Path.normpath ∧ !tree.isDirectory p then some (.directory 0)
  else tree p

end FileTree

/-! ## The plan for a commit -/

inductive IoOperation where
  | move (src dst : Path)
  | delete (path : Path)
  | appendBytes (src : Path) (srcOffset numBytes : ℤ) (dst : Path) (dstOffset : ℤ)
  deriving DecidableEq, Repr

namespace IoOperation

def run (tree : FileTree) : IoOperation → Except CloneError FileTree
  | .move src dst => tree.rename src dst
  | .delete path => tree.remove path
  | .appendBytes src srcOffset numBytes dst dstOffset =>
    tree.appendBytes src srcOffset numBytes dst dstOffset

/-- The file that an operation takes away from its place. -/
def consumes : IoOperation → List Path
  | .move src _ => [src]
  | .delete path => [path]
  | .appendBytes .. => []

end IoOperation

/-- The operations in their order, which the source keeps in reverse, and `deleted_set`. -/
structure Plan where
  operations : List IoOperation
  deletedSet : List Path

/-- The order of the changes of a commit, which `ORDER BY batch_id` leaves open in a batch. -/
structure BatchOrder where
  order : List CommitChange → List CommitChange
  perm : ∀ changes, (order changes).Perm changes
  sorted : ∀ changes, (order changes).Pairwise fun c d => c.batchId ≤ d.batchId

/-- What `git rev-parse --show-toplevel` prints. -/
structure Toplevel where
  path : Path
  plain : path.Plain

structure Clone where
  repoToplevel : Toplevel
  avc : Avc
  tree : FileTree
  /-- The files that operations have taken away from their places. -/
  consumed : List Path

/-- The steps until one raises. -/
def untilRaise {σ α ε : Type} (f : σ → α → σ × Option ε) : σ → List α → σ × Option ε
  | s, [] => (s, none)
  | s, a :: as =>
    match f s a with
    | (s', none) => untilRaise f s' as
    | (s', some e) => (s', some e)

/-- `id[:2]/id-blob-i`. -/
def BlobName.path (name : BlobName) : Path :=
  ⟨false, [String.ofList (name.commitId.toList.take 2),
    name.commitId ++ "-blob-" ++ toString name.blobId]⟩

namespace Clone

variable (clone : Clone)

def avcDir : Path := clone.repoToplevel.path.join ⟨false, [".avc"]⟩

def blobsDir : Path := clone.avcDir.join ⟨false, ["blobs"]⟩

def blobPath (name : BlobName) : Path := clone.blobsDir.join name.path

/-- `abs_dst`. -/
def absDst (path : Path) : Path := clone.avc.dataToplevel.join path

/-- The loop body of the plan. -/
def planChange (c : CommitChange) (plan : Plan) : Except CloneError Plan :=
  let absDst := clone.absDst c.path
  let blobPath := clone.blobPath c.blobName
  match c.type with
  | .create =>
    if c.blobOffset ≠ 0 ∨ c.startOffset ≠ 0 then .error (.avc .assertionError)
    else
      match clone.tree.getsize blobPath with
      | .error e => .error e
      | .ok size =>
        if c.numBytes ≠ size then .error (.avc .assertionError)
        else .ok { plan with operations := .move blobPath absDst :: plan.operations }
  | .append =>
    let append := .appendBytes blobPath c.blobOffset c.numBytes absDst c.startOffset
    if blobPath ∈ plan.deletedSet then
      .ok { plan with operations := append :: plan.operations }
    else
      .ok ⟨append :: .delete blobPath :: plan.operations, blobPath :: plan.deletedSet⟩

def plan (changes : List CommitChange) : Except CloneError Plan :=
  changes.foldrM clone.planChange ⟨[], []⟩

def runOperation (op : IoOperation) : Clone × Option CloneError :=
  match op.run clone.tree with
  | .error e => (clone, some e)
  | .ok tree => ({ clone with tree, consumed := clone.consumed ++ op.consumes }, none)

def withHead (commitId : CommitId) : Clone :=
  { clone with avc := { clone.avc with localDb := { clone.avc.localDb with head := some commitId } } }

section Apply

variable (batches : BatchOrder)

def applyCommit (commitId : CommitId) : Clone × Option CloneError :=
  let changes := batches.order
    (clone.avc.globalDb.commitChanges.filter (·.commitId = commitId))
  if changes = [] then (clone, some (.avc .assertionError))
  else
    match clone.plan changes with
    | .error e => (clone, some e)
    | .ok plan =>
      match untilRaise runOperation clone plan.operations with
      | (clone', some e) => (clone', some e)
      | (clone', none) => (clone'.withHead commitId, none)

/-- The loop that collects the commits, from `main` back to `HEAD`. -/
def commitsToApply (db : GlobalDb) (head : Option CommitId) :
    ℕ → Option CommitId → List CommitId → Except CloneError (List CommitId)
  | fuel, main, commits =>
    if main = head then .ok commits
    else
      match fuel, main with
      | _, none => .error (.avc (.exception "head is not an ancestor of main"))
      | 0, some _ => .error (.avc .endless)
      | fuel + 1, some commitId =>
        match db.getParent commitId with
        | .error e => .error (.avc e)
        | .ok parent => commitsToApply db head fuel parent (commitId :: commits)

def fastForward : Clone × Option CloneError :=
  if clone.avc.localDb.stagedChanges ≠ [] then
    (clone, some (.avc (.exception "Cannot fast-forward with staged changes")))
  else
    match commitsToApply clone.avc.globalDb clone.avc.localDb.head
        clone.avc.globalDb.commits.length clone.avc.globalDb.main [] with
    | .error e => (clone, some e)
    | .ok commits => untilRaise (fun c id => applyCommit c batches id) clone commits

end Apply

end Clone

end NpmFollower.DatabaseExporting
