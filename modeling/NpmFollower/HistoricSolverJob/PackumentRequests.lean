import NpmFollower.PostgresDb.CustomTypes
import NpmFollower.PostgresDb.JsonMaps

/-! # Packuments as the historic solver reads them

A document is parsed into its versions without betas and their times in order,
and a parsed packument is restricted to a past time. An error is a panic.
-/

namespace NpmFollower.HistoricSolverJob

open PostgresDb

/-- Parsing of chrono, and its largest time. -/
structure Chrono where
  parseFromRfc3339 : String → Option DateTime
  maxUtc : DateTime
  le_maxUtc : ∀ x t, parseFromRfc3339 x = some t → t ≤ maxUtc

structure ParsedPackument (τ : Type) where
  latestTag : τ
  versions : JsonMap
  /-- Sorted by the date. -/
  sortedTimes : List (String × DateTime)
  modifiedTime : DateTime
  createdTime : DateTime

def expect {α : Type} (message : String) : Option α → Except String α
  | some a => .ok a
  | none => .error message

theorem expect_eq_ok {α : Type} {message : String} {o : Option α} {a : α} :
    expect message o = .ok a ↔ o = some a := by
  cases o <;> simp [expect]

def isBeta (vName : String) : Bool := vName.toList.contains '-' || vName.toList.contains '+'

/-! ## Parsing -/

def cleanDist : Value → Value
  | .object dist =>
    match JsonMap.get dist "tarball" with
    | some tarball => .object [("tarball", tarball)]
    | none => .object dist
  | v => v

def keptKeys : List String :=
  ["name", "version", "_id", "dist", "dependencies", "devDependencies", "optionalDependencies",
    "peerDependencies", "peerDependenciesMeta", "overrides", "bundleDependencies"]

def cleanVersionBlob : Value → Value
  | .object m =>
    .object ((m.map fun e => if e.1 = "dist" then (e.1, cleanDist e.2) else e).filter
      fun e => keptKeys.contains e.1)
  | v => v

namespace Chrono

variable (C : Chrono)

def parseDatetime (x : String) : Except String DateTime :=
  expect "called `Result::unwrap()` on an `Err` value"
    ((C.parseFromRfc3339 x).or (C.parseFromRfc3339 (x ++ "Z")))

def parseTime (message : String) (v : Value) : Except String DateTime := do
  C.parseDatetime (← expect message v.asString)

/-- What is left of `versions` and `time` when both are objects. -/
def parseTimes (versions time : JsonMap) : Except String (ParsedPackument Unit) := do
  let modified ← expect "modified time must exist" (time.remove "modified").1
  let time := (time.remove "modified").2
  let modifiedTime ← C.parseTime "time must be a string" modified
  let created ← expect "created time must exist" (time.remove "created").1
  let time := (time.remove "created").2
  let createdTime ← C.parseTime "time must be a string" created
  let time := time.filter fun e => !isBeta e.1 && versions.containsKey e.1
  let versions := versions.filter fun e => JsonMap.containsKey time e.1
  let times ← time.mapM fun e => do return (e.1, ← C.parseTime "dates must be strings" e.2)
  return {
    latestTag := ()
    versions
    -- the sort is stable
    sortedTimes := times.insertionSort fun a b => a.2 ≤ b.2
    modifiedTime
    createdTime }

def parsePackument (j : JsonMap) (packageName : String) :
    Except String (Option (ParsedPackument Unit)) :=
  match j.remove "versions" with
  | (none, _) => .ok none
  | (some versions, j) => do
    let time ← expect ("time must be present: " ++ packageName) (j.remove "time").1
    let versions ← expect "versions must be an object" versions.asObject
    let versions := versions.map fun e => (e.1, cleanVersionBlob e.2)
    let time ← expect "time must be an object" time.asObject
    return some (← C.parseTimes versions time)

/-! ## Restriction -/

def filterTime (maybeFilterTime : Option DateTime) : DateTime := maybeFilterTime.getD C.maxUtc

def restrictTime (packument : ParsedPackument Unit) (maybeFilterTime : Option DateTime)
    (packageName : String) : Except String (Option (ParsedPackument String)) :=
  let filterTime := C.filterTime maybeFilterTime
  -- the partition point of a sorted list
  let firstBadTimeIdx := (packument.sortedTimes.takeWhile fun e => decide (e.2 ≤ filterTime)).length
  if firstBadTimeIdx = 0 then .ok none
  else do
    let (_, lastGoodTime) ← expect "index out of bounds" packument.sortedTimes[firstBadTimeIdx - 1]?
    let goodTimes := packument.sortedTimes.take firstBadTimeIdx
    let goodVersions ← goodTimes.mapM fun e => do
      return (e.1, ← expect ("version must exist, pkg = " ++ packageName ++ ", v = " ++ e.1)
        (packument.versions.get e.1))
    let lastNonBetaGoodVersion := (goodTimes.reverse.find? fun e => !isBeta e.1).map Prod.fst
    let latestTag ← expect "called `Option::unwrap()` on a `None` value" lastNonBetaGoodVersion
    return some {
      latestTag
      versions := goodVersions.foldl (fun m e => JsonMap.insert m e.1 e.2) []
      sortedTimes := goodTimes
      modifiedTime := lastGoodTime
      createdTime := packument.createdTime }

end Chrono

/-- A packument without its tag, as a registry that serves it again would be read. -/
def ParsedPackument.forget (packument : ParsedPackument String) : ParsedPackument Unit :=
  { packument with latestTag := () }

/-! ## What a parsed packument keeps -/

/-- Every version has one time and every time is that of a version. -/
structure ParsedPackument.WellFormed {τ : Type} (C : Chrono) (p : ParsedPackument τ) : Prop where
  sorted : p.sortedTimes.Pairwise fun a b => a.2 ≤ b.2
  noBeta : ∀ e ∈ p.sortedTimes, isBeta e.1 = false
  nodup : (p.sortedTimes.map Prod.fst).Nodup
  containsKey_iff : ∀ v, p.versions.containsKey v = true ↔ v ∈ p.sortedTimes.map Prod.fst
  le_maxUtc : ∀ e ∈ p.sortedTimes, e.2 ≤ C.maxUtc

end NpmFollower.HistoricSolverJob
