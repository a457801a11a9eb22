import NpmFollower.HistoricSolverJob.PackumentRequests
import NpmFollower.HistoricSolverJob.SolveSolution
import NpmFollower.SemverSpecSerialization.ParseSemver

/-! # One job of the historic solver

A job solves a downstream package shortly before an update, shortly after it and
then day by day, until the old version of the updated package is gone. What is
wrong with the package is a result; what is wrong with the answers of the
registry or of npm is a panic, and so an error of the model.
-/

namespace NpmFollower.HistoricSolverJob

open PostgresDb SemverSpecSerialization

structure Job where
  updateFromId : ℤ
  updateToId : ℤ
  downstreamPackageId : ℤ
  updatePackageName : String
  updateFromVersion : Semver
  updateToVersion : Semver
  updateToTime : DateTime
  downstreamPackageName : String

structure JobResult where
  updateFromId : ℤ
  updateToId : ℤ
  downstreamPackageId : ℤ
  resultCategory : String
  solveHistory : List SolveResult
  stdout : String
  stderr : String

inductive ResultError where
  | downstreamMissingPackage
  | downstreamMissingVersion
  | fromMissingPackage
  | fromMissingVersion
  | gaveUp
  | removedDep
  | solveError
  | miscError
deriving DecidableEq

inductive ResultCategory where
  | ok
  | error (e : ResultError)
deriving DecidableEq

def ResultCategory.intoStr : ResultCategory → String
  | .ok => "Ok"
  | .error .downstreamMissingPackage => "DownstreamMissingPackage"
  | .error .downstreamMissingVersion => "DownstreamMissingVersion"
  | .error .fromMissingPackage => "FromMissingPackage"
  | .error .fromMissingVersion => "FromMissingVersion"
  | .error .gaveUp => "GaveUp"
  | .error .removedDep => "RemovedDep"
  | .error .solveError => "SolveError"
  | .error .miscError => "MiscError"

/-! ## Times -/

/-- `Duration::seconds`, in nanoseconds. -/
def seconds (n : ℤ) : ℤ := n * 10 ^ 9

def days (n : ℤ) : ℤ := seconds (n * 24 * 60 * 60)

def epsilon : ℤ := seconds 10

def nextTime (initialTime currentTime : DateTime) : Option DateTime :=
  let nextTime := currentTime + days 1
  if nextTime - initialTime > days 365 then none else some nextTime

theorem nextTime_eq_some {initialTime currentTime next : ℤ}
    (h : nextTime initialTime currentTime = some next) :
    next = currentTime + days 1 ∧ next ≤ initialTime + days 365 := by
  rw [nextTime] at h
  split_ifs at h with hlate
  have hnext : currentTime + days 1 = next := Option.some.inj h
  have hle : ¬ currentTime + days 1 - initialTime > days 365 := hlate
  omega

/-- What is left until the solver gives up. -/
def timeLeft (initialTime currentTime : ℤ) : ℕ :=
  (initialTime + days 365 - currentTime).toNat

theorem timeLeft_lt {initialTime currentTime next : ℤ}
    (h : nextTime initialTime currentTime = some next) :
    timeLeft initialTime next < timeLeft initialTime currentTime := by
  obtain ⟨hnext, hle⟩ := nextTime_eq_some h
  have hday : 0 < days 1 := by decide
  rw [timeLeft, timeLeft]
  omega

/-! ## One solve -/

/-- What `npm install` does in the directory of a solve. -/
inductive NpmInstall where
  | failed (stdout stderr : List UInt8)
  | installed (packageLock : Value)

/-- What a job is answered from outside of it; an error is the panic of the call. -/
structure Surroundings where
  registryNow : String → Except String Value
  npmInstall : Value → DateTime → Except String NpmInstall

/-- The parsers of the job's texts, and `String::from_utf8_lossy`. -/
structure Readers where
  chrono : Chrono
  unicode : Unicode
  fromUtf8Lossy : List UInt8 → String

def unwrapNone : String := "called `Option::unwrap()` on a `None` value"

/-- What follows the last occurrence of the text. -/
def afterLast (sought : List Char) : List Char → Option (List Char)
  | [] => none
  | c :: s =>
    (afterLast sought s).or
      (if sought.isPrefixOf (c :: s) then some ((c :: s).drop sought.length) else none)

def droppedKeys : List String :=
  ["_id", "_shasum", "_from", "_npmVersion", "_nodeVersion", "_npmUser"]

namespace Readers

variable (R : Readers)

def unwrapSemver (v : String) : Except String Semver :=
  match parseSemver R.unicode v with
  | .ok v => .ok v
  | .error _ => .error "called `Result::unwrap()` on an `Err` value"

def getMostRecentLeqTime (pack : ParsedPackument Unit) (dt : DateTime) (packageName : String) :
    Except String (Option (Semver × Value)) := do
  match ← R.chrono.restrictTime pack (some dt) packageName with
  | none => return none
  | some restricted =>
    let vBlob ← expect unwrapNone (restricted.versions.get restricted.latestTag)
    let vBlobObj ← expect unwrapNone vBlob.asObject
    let vBlobObj := droppedKeys.foldl (fun m key => (m.remove key).2) vBlobObj
    let latest ← R.unwrapSemver restricted.latestTag
    return some (latest, .object vBlobObj)

/-- The name of a package after its path and the version it was solved to. -/
def solvedVersion (depName : List Char) (depInfo : JsonMap) : Except String (String × Semver) := do
  let version ← expect unwrapNone (depInfo.get "version")
  let version ← expect unwrapNone version.asString
  return (String.ofList depName, ← R.unwrapSemver version)

def pushLocked (solution : SolveSolutionMetrics) (dep : String × Value) :
    Except String SolveSolutionMetrics :=
  if dep.1 = "" then .ok solution
  else do
    let depInfo ← expect unwrapNone dep.2.asObject
    if depInfo.containsKey "link" then return solution
    else
      match afterLast "node_modules/".toList dep.1.toList with
      | none => return solution
      | some depName => do
        let (depName, version) ← R.solvedVersion depName depInfo
        return solution.pushDep depName version

def readLock (downstreamV : Semver) (dt : DateTime) (lockJson : Value) :
    Except String SolveSolutionMetrics := do
  let lockObj ← expect unwrapNone lockJson.asObject
  let deps ← expect unwrapNone (lockObj.remove "packages").1
  let deps ← expect unwrapNone deps.asObject
  deps.foldlM R.pushLocked (.new downstreamV dt lockJson)

/-- A solve that did not give a solution, with what it adds to the job's output. -/
structure FailedSolve where
  err : ResultError
  stdout : List UInt8
  stderr : List UInt8

def solveDependencies (S : Surroundings) (packumentDoc : ParsedPackument Unit) (dt : DateTime)
    (solvePackageName : String) : Except String (Except FailedSolve SolveSolutionMetrics) := do
  match ← R.getMostRecentLeqTime packumentDoc dt solvePackageName with
  | none => return .error ⟨.downstreamMissingVersion, [], []⟩
  | some (semverAtTime, packageJsonAtTime) =>
    match ← S.npmInstall packageJsonAtTime dt with
    | .failed stdout stderr => return .error ⟨.solveError, stdout, stderr⟩
    | .installed lockJson => return .ok (← R.readLock semverAtTime dt lockJson)

/-! ## The job -/

/-- How a job that does not panic ends, with its history. -/
structure SolveRun where
  result : Except FailedSolve Unit
  history : List SolveResult

def gone (err : ResultError) (history : List SolveResult) : SolveRun :=
  ⟨.error ⟨err, [], []⟩, history⟩

/-- What a solve after the update decides; `none` is another round. -/
def judge (job : Job) (thisSolve : SolveSolutionMetrics) :
    Except String (Option (Except ResultError Unit)) :=
  if thisSolve.areDepsRemoved job.updatePackageName then .ok (some (.error .removedDep))
  else do
    let allOld ← expect unwrapNone
      (thisSolve.allOldGone job.updatePackageName job.updateFromVersion)
    return if allOld then some (.ok ()) else none

def solveLoop (S : Surroundings) (job : Job) (packumentDoc : ParsedPackument Unit) (dt : DateTime)
    (history : List SolveResult) : Except String SolveRun := do
  match ← R.solveDependencies S packumentDoc dt job.downstreamPackageName with
  | .error failed => return ⟨.error failed, history⟩
  | .ok thisSolve =>
    let history := history ++ [thisSolve.toSolveResult job.updatePackageName]
    match ← judge job thisSolve with
    | some (.error err) => return gone err history
    | some (.ok ()) => return ⟨.ok (), history⟩
    | none =>
      match _ : nextTime job.updateToTime dt with
      | some nextDt => solveLoop S job packumentDoc nextDt history
      | none => return gone .gaveUp history
termination_by timeLeft job.updateToTime dt
decreasing_by exact timeLeft_lt (by assumption)

def solveFromUpdate (S : Surroundings) (job : Job) (packumentDoc : ParsedPackument Unit) :
    Except String SolveRun := do
  match ← R.solveDependencies S packumentDoc (job.updateToTime - epsilon)
    job.downstreamPackageName with
  | .error failed => return ⟨.error failed, []⟩
  | .ok initialSolve =>
    let history := [initialSolve.toSolveResult job.updatePackageName]
    if initialSolve.contains job.updatePackageName job.updateFromVersion then
      R.solveLoop S job packumentDoc (job.updateToTime + epsilon) history
    else if initialSolve.areDepsRemoved job.updatePackageName then
      return gone .fromMissingPackage history
    else return gone .fromMissingVersion history

def runSolveJobResult (S : Surroundings) (job : Job) : Except String SolveRun := do
  let packumentDoc ← S.registryNow job.downstreamPackageName
  let packumentDoc ← expect "non-object packument" packumentDoc.asObject
  match ← R.chrono.parsePackument packumentDoc job.downstreamPackageName with
  | none => return gone .downstreamMissingPackage []
  | some packumentDoc => R.solveFromUpdate S job packumentDoc

def jobResult (job : Job) (run : SolveRun) : JobResult where
  updateFromId := job.updateFromId
  updateToId := job.updateToId
  downstreamPackageId := job.downstreamPackageId
  resultCategory :=
    match run.result with
    | .ok () => ResultCategory.ok.intoStr
    | .error failed => (ResultCategory.error failed.err).intoStr
  solveHistory := run.history
  stdout :=
    match run.result with
    | .ok () => ""
    | .error failed => R.fromUtf8Lossy failed.stdout
  stderr :=
    match run.result with
    | .ok () => ""
    | .error failed => R.fromUtf8Lossy failed.stderr

def runSolveJob (S : Surroundings) (job : Job) : Except String JobResult := do
  return R.jobResult job (← R.runSolveJobResult S job)

end Readers

end NpmFollower.HistoricSolverJob
