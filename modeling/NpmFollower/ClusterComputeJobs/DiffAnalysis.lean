import NpmFollower.BlobIdxClient.ComputeArguments
import NpmFollower.Library.WorkerPipeline
import NpmFollower.PostgresDb.DiffAnalysis

/-! # Diffs computed on the cluster

A worker puts the keys of its pairs into one request, in groups for the nodes of
the cluster, and reads back which pair each output belongs to. What is computed is
stored, and a pair leaves the table of those to compute in the same transaction.
-/

namespace NpmFollower.ClusterComputeJobs

open Std BlobIdxClient PostgresDb WorkerPipeline

/-! ## The nodes of the cluster -/

structure TarballResult where
  exitCode : ℤ
  stdout : String
  stderr : String

/-- The order of a map in a message is open. -/
inductive ClientResponse where
  | message (m : List (String × TarballResult))
  | error (e : String)

/-- What comes of reading the tarballs with the keys and running the program on them. -/
abbrev Binary := List String → Except String TarballResult

/-- `compute_run_bin_multi`, from `args[3]`. -/
def runBinMulti (binary : Binary) (tarballUrlKeys : String) : ClientResponse :=
  match (computeRunBinMulti tarballUrlKeys).dedup.mapM fun urls =>
      (binary urls).map fun res => ("&".intercalate urls, res) with
  | .ok m => .message m
  | .error e => .error e

/-- What answers a request: each chunk has its node, which may time out, and the request may
fail as a whole. -/
structure Cluster where
  reached : Bool
  node : ℕ → Option Binary

namespace Cluster

variable (cluster : Cluster)

def computeMulti (i : ℕ) (chunk : List (List String)) : ClientResponse :=
  match cluster.node i with
  | some binary => runBinMulti binary (submitComputeMulti chunk)
  | none => .error "Timeout"

def submitMulti (tarballChunks : List (List (List String))) : Option (List ClientResponse) :=
  if cluster.reached then some (tarballChunks.zipIdx.map fun c => cluster.computeMulti c.2 c.1)
  else none

end Cluster

/-! ## A worker -/

structure QRes where
  fromId : ℤ
  toId : ℤ
  fromKey : String
  toKey : String
deriving DecidableEq

def QRes.pair (q : QRes) : ℤ × ℤ := (q.fromId, q.toId)

def QRes.keys (q : QRes) : List String := [q.fromKey, q.toKey]

def QRes.ids (q : QRes) : List (String × ℤ) := [(q.fromKey, q.fromId), (q.toKey, q.toId)]

def chunkSize : ℕ := 2500

def numWorkers : ℕ := 50

def numLocalWorkers : ℕ := 3

/-- The decoders of the outputs. -/
structure Codecs where
  base64Decode : String → Option (List UInt8)
  parseFiles : List UInt8 → Option (ExtTreeMap String FileDiff compare)
  fromUtf8 : List UInt8 → Option String

/-- `str::split_once` at a character. -/
def splitOnce (sep : Char) : List Char → Option (List Char × List Char)
  | [] => none
  | c :: s => if c = sep then some ([], s) else (splitOnce sep s).map fun r => (c :: r.1, r.2)

/-- `str::parse::<usize>`. -/
def parseUsize : List Char → Option ℕ
  | '+' :: ds =>
    if ds ≠ [] ∧ ds.all Char.isDigit ∧ Nat.ofDigitChars 10 ds 0 < 2 ^ 64 then
      some (Nat.ofDigitChars 10 ds 0) else none
  | ds =>
    if ds ≠ [] ∧ ds.all Char.isDigit ∧ Nat.ofDigitChars 10 ds 0 < 2 ^ 64 then
      some (Nat.ofDigitChars 10 ds 0) else none

section Worker

variable (E : Codecs)

/-- What the output of the program says; `none` is a panic. -/
def jobResult (res : TarballResult) : Option DiffAnalysisJobResult :=
  if res.exitCode = 0 ∧ res.stdout ≠ "" then do
    let stdout ← E.base64Decode res.stdout
    match E.parseFiles stdout with
    | some files => return .diff files
    | none => return .errUnParseable
  else if res.exitCode = 103 then do
    let stderr ← E.base64Decode res.stderr
    let stderr ← E.fromUtf8 stderr
    let (old, new) ← splitOnce ',' stderr.toList
    return .errTooManyFiles (← parseUsize old) (← parseUsize new)
  else some (.errClient res.stderr)

/-- Of several ids for a key the last. -/
def idLookup (chunk : List QRes) (key : String) : Option ℤ :=
  (chunk.flatMap QRes.ids).reverse.lookup key

def tarballChunks (chunk : List QRes) : List (List (List String)) :=
  (chunks (chunkSize / numWorkers) chunk).map fun c => c.map QRes.keys

/-- The outputs in the messages; a failed node has none. -/
def outputs (resps : List ClientResponse) : List (String × TarballResult) :=
  resps.flatMap fun
    | .message m => m
    | .error _ => []

/-- One output; that of a pair which is there already is dropped. -/
def addDiff (chunk : List QRes) (diffs : List PostgresDb.DiffAnalysis)
    (output : String × TarballResult) : Option (List PostgresDb.DiffAnalysis) := do
  let (old, new) ← splitOnce '&' output.1.toList
  let fromId ← idLookup chunk (String.ofList old)
  let toId ← idLookup chunk (String.ofList new)
  if diffs.any fun d => d.pair = (fromId, toId) then return diffs
  else return diffs ++ [⟨fromId, toId, ← jobResult E output.2⟩]

/-- The answer to a chunk; `none` is a panic of the worker. -/
def diffWorker (chunk : List QRes) (cluster : Cluster) : Option (List PostgresDb.DiffAnalysis) := do
  let resps ← cluster.submitMulti (tarballChunks chunk)
  (outputs resps).foldlM (addDiff E chunk) []

end Worker

/-! ## The tables -/

/-- The results after which a pair is not computed again. -/
def definitive (d : PostgresDb.DiffAnalysis) : Bool :=
  match d.jobResult with
  | .diff _ => true
  | .errTooManyFiles _ _ => true
  | _ => false

structure DiffTables where
  diffsToCompute : List QRes
  diffAnalysis : List PostgresDb.DiffAnalysis

namespace DiffTables

def deleteRowsAfterCompute (diffs : List PostgresDb.DiffAnalysis) (t : DiffTables) : DiffTables :=
  { t with
    diffsToCompute :=
      Rows.deleteKeys QRes.pair t.diffsToCompute ((diffs.filter definitive).map (·.pair)) }

/-- The transaction for a batch; `none` is its panic, which leaves the tables alone. -/
def insertDiffs (diffs : List PostgresDb.DiffAnalysis) (t : DiffTables) : Option DiffTables :=
  if diffs.isEmpty then some t
  else do
    let t := t.deleteRowsAfterCompute diffs
    let diffAnalysis ← DiffAnalysis.insertBatchDiffAnalysis diffs t.diffAnalysis
    return { t with diffAnalysis }

end DiffTables

end NpmFollower.ClusterComputeJobs
