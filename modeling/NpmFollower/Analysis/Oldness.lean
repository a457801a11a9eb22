import NpmFollower.HistoricSolverJob.SolveHistory
import NpmFollower.Library.KeysetPages
import NpmFollower.PostgresDb.Connection
import NpmFollower.RelationalDbBuilder.LruCache

/-! # How old solved dependencies are

For each result of the historic solver, the first solve says which versions a
downstream package got. The age of such a version is the time from its release to
that of the newest version, not lower than it, that could have been taken instead.
The versions of a package are read once and then come from a cache.
-/

namespace NpmFollower.Analysis

open Std PostgresDb HistoricSolverJob RelationalDbBuilder

structure HistoricResultRow where
  updateFromId : ℤ
  updateToId : ℤ
  downstreamPackageId : ℤ
  solveHistory : List SolveResult

structure OldnessPair where
  oldSecs : ℤ
  depPkgId : ℤ
deriving DecidableEq

structure OldnessRow where
  updateFromId : ℤ
  updateToId : ℤ
  downstreamPackageId : ℤ
  oldnesses : List OldnessPair
deriving DecidableEq

/-! ## The versions of a package -/

abbrev VersionCacheValue := List (Semver × DateTime) × Option ℤ

def getVersionTimes (db : Db) (packageId : ℤ) : List (Semver × DateTime) :=
  (db.versions.rows.filter (·.packageId = packageId)).map fun v => (v.semver, v.created)

/-- What is read from the database for a package: its releases, by version. -/
def readVersionTimes (db : Db) (package : String) : VersionCacheValue :=
  match Rows.find (fun p : Package => p.name) db.packages.rows package with
  | none => ([], none)
  | some row =>
    let versions := (getVersionTimes db row.id).filter fun v =>
      v.1.prerelease.isEmpty && v.1.build.isEmpty
    (versions.insertionSort fun a b => (compare a.1 b.1).isLE, some row.id)

section Cached

variable (C : LruCache String VersionCacheValue)

def getPackageVersionTimes (db : Db) (package : String) (cache : C.State) :
    VersionCacheValue × C.State :=
  match C.get cache package with
  | (some versions, cache) => (versions, cache)
  | (none, cache) =>
    let versions := readVersionTimes db package
    (versions, C.put cache package versions)

/-- `max_by_key` on the times: of several last ones the last. -/
def latest (versions : List (Semver × DateTime)) : Option (Semver × DateTime) :=
  versions.foldl (fun best v => if best.any (v.2 < ·.2) then best else some v) none

/-- `Duration::num_seconds`, of nanoseconds. -/
def numSeconds (duration : ℤ) : ℤ := duration.tdiv (10 ^ 9)

/-- The age of a version among those of its package, which are sorted. -/
def age (versions : VersionCacheValue) (solvedVersion : Semver) (solveTime : DateTime) :
    Option OldnessPair := do
  let depPkgId ← versions.2
  let solved ← versions.1.find? fun v => compare v.1 solvedVersion = .eq
  let mostRecentBeforeSolveTime ← latest <| versions.1.filter fun v =>
    v.2 ≤ solveTime && (compare v.1 solved.1).isGE
  return ⟨numSeconds (mostRecentBeforeSolveTime.2 - solved.2), depPkgId⟩

def howOld (db : Db) (package : String) (solvedVersion : Semver) (solveTime : DateTime)
    (cache : C.State) : Option OldnessPair × C.State :=
  let (versions, cache) := getPackageVersionTimes C db package cache
  (age versions solvedVersion solveTime, cache)

/-! ## The lock file of a solve -/

variable (R : Readers)

/-- One entry of a lock file; `none` is the error that `?` returns. -/
def lockedDep (solution : SolveSolutionMetrics) (dep : String × Value) :
    Option SolveSolutionMetrics :=
  if dep.1 = "" then some solution
  else do
    let depInfo ← dep.2.asObject
    if depInfo.containsKey "link" then return solution
    else
      match afterLast "node_modules/".toList dep.1.toList with
      | none => return solution
      | some depName => do
        let version ← depInfo.get "version"
        let version ← version.asString
        let version ← (SemverSpecSerialization.parseSemver R.unicode version).toOption
        return solution.pushDep (String.ofList depName) version

/-- `none` is also the panic on packages that are no object. -/
def parseLockfileJson (maxUtc : DateTime) (lockJson : Value) : Option SolveSolutionMetrics := do
  let lockObj ← lockJson.asObject
  let deps ← (lockObj.remove "packages").1
  let deps ← deps.asObject
  deps.foldlM (lockedDep R) (.new ⟨0, 0, 0, [], []⟩ maxUtc .null)

def intoAllDeps (metrics : SolveSolutionMetrics) : List (String × Semver) :=
  metrics.deps.toList.flatMap fun dep => dep.2.elements.map fun version => (dep.1, version)

/-! ## The rows of a page -/

/-- The ages of all dependencies, one after the other. -/
def howOldAll (db : Db) (solveTime : DateTime) :
    List (String × Semver) → C.State → List OldnessPair × C.State
  | [], cache => ([], cache)
  | dep :: deps, cache =>
    let (oldness, cache) := howOld C db dep.1 dep.2 solveTime cache
    let (oldnesses, cache) := howOldAll db solveTime deps cache
    (oldness.toList ++ oldnesses, cache)

def oldnessRow (db : Db) (row : HistoricResultRow) (cache : C.State) :
    Option (OldnessRow × C.State) :=
  match row.solveHistory.head? with
  | some firstSolve => do
    let solution ← parseLockfileJson R R.chrono.maxUtc firstSolve.fullPackageLock
    let (oldnesses, cache) := howOldAll C db firstSolve.solveTime (intoAllDeps solution) cache
    return (⟨row.updateFromId, row.updateToId, row.downstreamPackageId, oldnesses⟩, cache)
  | none => some (⟨row.updateFromId, row.updateToId, row.downstreamPackageId, []⟩, cache)

def oldnessRows (db : Db) : List HistoricResultRow → C.State → Option (List OldnessRow × C.State)
  | [], cache => some ([], cache)
  | row :: table, cache => do
    let (oldness, cache) ← oldnessRow C R db row cache
    let (oldnesses, cache) ← oldnessRows db table cache
    return (oldness :: oldnesses, cache)

instance lawfulKeys : LawfulBEq (ℤ ×ₗ ℤ ×ₗ ℤ) := inferInstance

def HistoricResultRow.key (r : HistoricResultRow) : ℤ ×ₗ ℤ ×ₗ ℤ :=
  toLex (r.updateFromId, toLex (r.updateToId, r.downstreamPackageId))

def OldnessRow.key (r : OldnessRow) : ℤ ×ₗ ℤ ×ₗ ℤ :=
  toLex (r.updateFromId, toLex (r.updateToId, r.downstreamPackageId))

/-- The insert of a page fails on a key that is already there. -/
def solveOldness (db : Db) (table : List HistoricResultRow) (s : List OldnessRow × C.State) :
    Option (List OldnessRow × C.State) := do
  let (rows, cache) ← oldnessRows C R db table s.2
  if ((s.1 ++ rows).map OldnessRow.key).Nodup then return (s.1 ++ rows, cache) else none

/-- The program, stopped after so many pages: it reads the results that have no row yet. -/
def processHistoricSolver (db : Db) (results : List HistoricResultRow) (chunkSize pages : ℕ)
    (oldnesses : List OldnessRow) : List OldnessRow × Bool :=
  let result := KeysetPages.visit HistoricResultRow.key
    (fun s => results.filter fun r => r.key ∉ s.1.map OldnessRow.key) chunkSize
    (solveOldness C R db) pages none (oldnesses, C.new)
  (result.1.1, result.2)

end Cached

end NpmFollower.Analysis
