import NpmFollower.Library.FiniteMap
import NpmFollower.PostgresDb.InternalDiffLogState
import NpmFollower.DiffLogBuilder.Deserialize

/-! # The diff log builder

A call of `process_changes` turns a list of changes into diff log entries. Each
change is compared with the hash state of its package, the resulting
instructions are applied to that state, and the state is flushed at the end.
-/

namespace NpmFollower.DiffLogBuilder

open Std PostgresDb

/-- What the builder calls outside of itself. -/
structure Env where
  parsers : Parsers
  hasher : Hasher
  /-- `serde_json::to_vec(..).len()`. -/
  toVecLen : Value → ℕ

/-- A change whose document has been read. -/
structure ParsedChange where
  seq : ℤ
  packageName : String
  data : PackageOnlyPackument
  versions : AllVersionPackuments

/-- An instruction with its hash and the number of bytes it writes. -/
abbrev SizedEntry := NewDiffLogEntryWithHash × ℕ

namespace ParsedChange

variable (H : Hasher) (c : ParsedChange)

def entry (instr : DiffLogInstruction) (hash : Option String) : NewDiffLogEntryWithHash :=
  ⟨⟨c.seq, c.packageName, instr⟩, hash⟩

def generateCreateVersionInstr (v : Semver) (vData : VersionOnlyPackument) : SizedEntry :=
  (c.entry (.createVersion v vData) (some (H.versionHash vData)), (H.version vData).2)

/-- One turn of the loop over the old and the new versions. -/
def diffVersion (v : Semver) :
    Option InternalDiffLogVersionState → Option VersionOnlyPackument → List SizedEntry
  | none, none => [] -- unreachable, `v` is a key of one of the two
  | some old, none => if old.deleted then [] else [(c.entry (.deleteVersion v) none, 0)]
  | none, some vData => [c.generateCreateVersionInstr H v vData]
  | some old, some vData =>
    if old.versionPackHash ≠ H.versionHash vData then
      [(c.entry (.updateVersion v vData) (some (H.versionHash vData)), (H.version vData).2)]
    else []

/-- The instructions for a package that exists; `none` is the panic on a package without a hash. -/
def updateInstrs (hashState : InternalDiffLogPackageState) : Option (List SizedEntry) := do
  let packageHash ← hashState.packagePackHash
  let versionInstrs := (FiniteMap.unionKeys hashState.versions c.versions).flatMap fun v =>
    c.diffVersion H v hashState.versions[v]? c.versions[v]?
  let packageInstrs :=
    if packageHash ≠ H.packageHash c.data then
      [(c.entry (.updatePackage c.data) (some (H.packageHash c.data)), (H.package c.data).2)]
    else []
  return versionInstrs ++ packageInstrs

def packDataSetLatestToNone : PackageOnlyPackument → PackageOnlyPackument × Bool
  | .normal _ created modified otherDistTags extraVersionTimes =>
    (.normal none created modified otherDistTags extraVersionTimes, true)
  | data => (data, false)

/-- The instructions for a new package. The latest tag may name one of the versions, so it is set
only after they have been created. -/
def createInstrs : List SizedEntry :=
  let (dataWithoutLatest, didRemoveLatest) := packDataSetLatestToNone c.data
  let hash := H.packageHash c.data
  let numBytes := (H.package c.data).2
  [(c.entry (.createPackage dataWithoutLatest) (if didRemoveLatest then none else some hash),
    numBytes)] ++
  c.versions.toList.map (fun e => c.generateCreateVersionInstr H e.1 e.2) ++
  (if didRemoveLatest then [(c.entry (.updatePackage c.data) (some hash), numBytes)] else []) ++
  [(c.entry .patchPackageReferences none, 0)]

def diffInstrs : Option InternalDiffLogPackageState → Option (List SizedEntry)
  | some hashState => c.updateInstrs H hashState
  | none => some (c.createInstrs H)

end ParsedChange

/-- What a call has accumulated: the manager, the new entries and the two byte counts. -/
structure Progress where
  stateManager : DiffStateManager
  newDiffEntries : List NewDiffLogEntryWithHash
  readBytes : ℕ
  writeBytes : ℕ

namespace Progress

def start : Progress := ⟨DiffStateManager.new, [], 0, 0⟩

/-- `process_change` after the change has been read; `none` is a panic. -/
def processParsed (H : Hasher) (table : InternalDiffLogStateTable) (s : Progress)
    (c : ParsedChange) : Option Progress := do
  let (hashState, manager) := s.stateManager.lookupPackage table c.packageName
  let diffInstrs ← c.diffInstrs H hashState
  let manager ← (diffInstrs.map Prod.fst).foldlM DiffStateManager.applyDiffEntry manager
  return { s with
    stateManager := manager
    newDiffEntries := s.newDiffEntries ++ diffInstrs.map Prod.fst
    writeBytes := s.writeBytes + (diffInstrs.map Prod.snd).sum }

def processChange (env : Env) (table : InternalDiffLogStateTable) (s : Progress) (c : Change) :
    Option Progress := do
  let s := { s with readBytes := s.readBytes + env.toVecLen c.rawJson }
  match ← env.parsers.deserializeChange c with
  | none => return s
  | some (packageName, data, versions) =>
    s.processParsed env.hasher table ⟨c.seq, packageName, data, versions⟩

end Progress

structure ProcessChangeError where
  seq : ℤ
  message : String
deriving DecidableEq

/-- The error that a panic of `process_change` is caught as. -/
def ProcessChangeError.ofSeq (seq : ℤ) : ProcessChangeError where
  seq := seq
  message := "Failed on seq: " ++ Int.repr seq ++ ".\n:Any \x7b .. \x7d"

/-- The loop of `process_changes`, which stops at the first change that panics. -/
def processAll (env : Env) (table : InternalDiffLogStateTable) (s : Progress) :
    List Change → Except ProcessChangeError Progress
  | [] => .ok s
  | c :: cs =>
    match s.processChange env table c with
    | some s' => processAll env table s' cs
    | none => .error (.ofSeq c.seq)

/-- The two tables that the builder writes. -/
structure DiffLogDb where
  internalDiffLogState : InternalDiffLogStateTable
  diffLog : List NewDiffLogEntry

structure ProcessChangeSuccessMetrics where
  readBytes : ℕ
  writeBytes : ℕ
deriving DecidableEq

/-- The writes at the end of a call. The panics of the flush are not caught: they are `none`. -/
def DiffLogDb.flush (db : DiffLogDb) (s : Progress) : Option DiffLogDb := do
  let table ← s.stateManager.flushToDb db.internalDiffLogState
  return ⟨table, db.diffLog ++ s.newDiffEntries.map (·.entry)⟩

def processChanges (env : Env) (db : DiffLogDb) (changes : List Change) :
    Option (Except ProcessChangeError (DiffLogDb × ProcessChangeSuccessMetrics)) :=
  match processAll env db.internalDiffLogState Progress.start changes with
  | .error e => some (.error e)
  | .ok s => (db.flush s).map fun db' => .ok (db', ⟨s.readBytes, s.writeBytes⟩)

/-- One call for each batch, on the tables the call before has left; `none` when one panics. -/
def runChangeBatches (env : Env) : DiffLogDb → List (List Change) → Option DiffLogDb
  | db, [] => some db
  | db, batch :: batches =>
    match processChanges env db batch with
    | some (.ok (db', _)) => runChangeBatches env db' batches
    | _ => none

/-- A hash that tells the tarballs and the kinds of package data apart. -/
def sampleHasher : Hasher where
  package
    | .normal none .. => ("untagged", 8)
    | .normal (some v) .. => (v.toString, 5)
    | .unpublished .. => ("unpublished", 11)
    | .missingData => ("missing data", 12)
    | .deleted => ("deleted", 7)
  version d := (d.dist.tarballUrl, 1)

def sampleEnv : Env := ⟨sampleParsers, sampleHasher, fun _ => 0⟩

def sampleVersion (tarballUrl : String) : VersionOnlyPackument where
  prodDependencies := []
  devDependencies := []
  peerDependencies := []
  optionalDependencies := []
  dist := {
    tarballUrl, shasum := none, unpackedSize := none, fileCount := none, integrity := none
    signature0Sig := none, signature0Keyid := none, npmSignature := none }
  repository := none
  time := 1420070400000
  extraMetadata := ∅

/-- What `sampleEnv` reads from a change without a latest tag. -/
def sampleParsed (seq : ℤ) (versions : List (Semver × String)) : ParsedChange where
  seq := seq
  packageName := "p"
  data := .normal none 1420070400000 1420070400000 [] ∅
  versions := (ExtTreeMap.ofList versions compare).map fun _ url => sampleVersion url

end NpmFollower.DiffLogBuilder
