import NpmFollower.PostgresDb.Packument

/-! # Reading a change of the registry

A change carries the CouchDB document of a package. The deserialiser takes the
fields it knows out of the document, panics where the document breaks an
assumption, and leaves the rest as extra metadata.
-/

namespace NpmFollower.DiffLogBuilder

open Std PostgresDb

/-- The parsers that the deserialiser calls. A spec parser that fails and a repository parser that
panics are `none`. -/
structure Parsers where
  parseSemver : String → Option Semver
  parseSpecViaNodeCached : String → Option ParsedSpec
  parseFromRfc3339 : String → Option DateTime
  deserializeRepoBlob : Value → Option (Option RepositoryInfo)
  /-- The text of a value in an error message. -/
  display : Value → String

structure Change where
  seq : ℤ
  rawJson : Value

namespace Parsers

variable (P : Parsers)

def parseDatetime (x : String) : Option DateTime :=
  (P.parseFromRfc3339 x).or (P.parseFromRfc3339 (x ++ "Z"))

def deserializeSpec (c : Value) : Option Spec :=
  match c with
  | .string specStr => do
    let parsed ← P.parseSpecViaNodeCached specStr
    return { raw := c, parsed }
  | _ => some
    { raw := c, parsed := .invalid ("spec must be a string, received: " ++ P.display c) }

def deserializeDependencies (versionBlob : JsonMap) (key : String) :
    Option (List (String × Spec) × JsonMap) :=
  let (removed, blob) := versionBlob.remove key
  match removed.bind fun x => x.nullToNone.bind Value.emptyArrayToNone with
  | none => some ([], blob)
  | some (.object raw) => do
    let deps ← raw.mapM fun e => (P.deserializeSpec e.2).map fun s => (e.1, s)
    return (deps, blob)
  -- an array or a string goes back under its own key
  | some (.array xs) => some ([], blob.insert key (.array xs))
  | some (.string s) => some ([], blob.insert key (.string s))
  | some _ => none

/-- Signatures, where there are any, are a list with at least one object. -/
def deserializeSig0 : Option (List Value) → Option (Option (String × String))
  | none => some none
  | some [] => none
  | some (s :: _) => do
    let s ← s.asObject
    let (sig, s) ← s.removeKeyUnwrapType Value.asString "sig"
    let (keyid, _) ← s.removeKeyUnwrapType Value.asString "keyid"
    return some (← sig, ← keyid)

def deserializeDist (dist : JsonMap) : Option Dist := do
  let (sigs, dist) ← dist.removeKeyUnwrapType Value.asArray "signatures"
  let sig0 ← deserializeSig0 sigs
  let (tarballUrl, dist) ← dist.removeKeyUnwrapType Value.asString "tarball"
  let (shasum, dist) ← dist.removeKeyUnwrapType Value.asString "shasum"
  let (unpackedSize, dist) ← dist.removeKeyUnwrapType Value.asI64 "unpackedSize"
  let (fileCount, dist) ← dist.removeKeyUnwrapType Value.asI64 "fileCount"
  guard (∀ n ∈ fileCount, -(2 ^ 31) ≤ n ∧ n < 2 ^ 31)
  let (integrity, dist) ← dist.removeKeyUnwrapType Value.asString "integrity"
  let (npmSignature, _) ← dist.removeKeyUnwrapType Value.asString "npm-signature"
  return {
    tarballUrl := ← tarballUrl, shasum, unpackedSize, fileCount, integrity
    signature0Sig := sig0.map Prod.fst, signature0Keyid := sig0.map Prod.snd, npmSignature }

/-- A repository that cannot be parsed is kept, under the key `repo`. -/
def deserializeRepository (blob : JsonMap) : Option (Option RepositoryInfo × JsonMap) :=
  let (repositoryBlob, blob) := blob.remove "repository"
  match repositoryBlob.bind Value.nullToNone with
  | none => some (none, blob)
  | some r => (P.deserializeRepoBlob r).map fun
    | some repo => (some repo, blob)
    | none => (none, blob.insert "repo" r)

/-- The number of versions of the source only decides whether a warning is printed. -/
def deserializeVersionBlob (versionBlob : JsonMap) (version : Semver)
    (versionTimes : BTreeMap Semver DateTime) (modifiedTime : DateTime) :
    Option VersionOnlyPackument := do
  let (prodDependencies, blob) ← P.deserializeDependencies versionBlob "dependencies"
  let (devDependencies, blob) ← P.deserializeDependencies blob "devDependencies"
  let (peerDependencies, blob) ← P.deserializeDependencies blob "peerDependencies"
  let (optionalDependencies, blob) ← P.deserializeDependencies blob "optionalDependencies"
  let (dist, blob) ← blob.removeKeyUnwrapType Value.asObject "dist"
  let dist ← deserializeDist (← dist)
  let (repository, blob) ← P.deserializeRepository blob
  return {
    prodDependencies, devDependencies, peerDependencies, optionalDependencies, dist, repository
    time := versionTimes[version]?.getD modifiedTime
    extraMetadata := ExtTreeMap.ofList blob compare }

end Parsers

/-- The keys of `version_times` are results; the parsed ones and the others are two maps here. -/
structure ParsedTimesData where
  created : DateTime
  modified : DateTime
  versionTimes : BTreeMap Semver DateTime × BTreeMap String DateTime

def onlyKeepOkVersionTimes (versionTimes : BTreeMap Semver DateTime × BTreeMap String DateTime) :
    BTreeMap Semver DateTime :=
  versionTimes.1

namespace Parsers

variable (P : Parsers)

def deserializeTimesNormal (j : JsonMap) : Option (ParsedTimesData × JsonMap) := do
  let (timeRaw, j) ← j.removeKeyUnwrapType Value.asObject "time"
  let entries ← (← timeRaw).mapM fun e => do
    return (e.1, ← P.parseDatetime (← e.2.asString))
  let times : BTreeMap String DateTime := ExtTreeMap.ofList entries compare
  let created ← times["created"]?
  let modified ← times["modified"]?
  let rest := ((times.erase "created").erase "modified").toList
  let okTimes := rest.filterMap fun e => (P.parseSemver e.1).map fun v => (v, e.2)
  let errTimes := rest.filter fun e => (P.parseSemver e.1).isNone
  let versionTimes := (ExtTreeMap.ofList okTimes compare, ExtTreeMap.ofList errTimes compare)
  return (⟨created, modified, versionTimes⟩, j)

/-- The time of one version with `ctime` and `mtime`, and its object without them. -/
def versionCtime (v : String × Value) : Option ((Semver × DateTime) × (String × Value)) := do
  let vObj ← v.2.asObject
  let (created, vObj) ← vObj.removeKeyUnwrapType Value.asString "ctime"
  let (modified, vObj) ← vObj.removeKeyUnwrapType Value.asString "mtime"
  let time ← match created, modified with
    | some c, some m => if c = m then P.parseDatetime c else none
    | none, none => P.parseDatetime "2015-01-01T00:00:00.000Z"
    | _, _ => none
  return ((← P.parseSemver v.1, time), (v.1, .object vObj))

def deserializeTimesCtime (j : JsonMap) : Option (ParsedTimesData × JsonMap) := do
  let (createdRaw, j) ← j.removeKeyUnwrapType Value.asString "ctime"
  let (modifiedRaw, j) ← j.removeKeyUnwrapType Value.asString "mtime"
  let created ← P.parseDatetime (← createdRaw)
  let modified ← P.parseDatetime (← modifiedRaw)
  let versionsMap ← (← j.get "versions").asObject
  let versions ← versionsMap.mapM P.versionCtime
  return (⟨created, modified, (ExtTreeMap.ofList (versions.map Prod.fst) compare, ∅)⟩,
    j.insert "versions" (.object (versions.map Prod.snd)))

def deserializeTimesMissingFakeIt (j : JsonMap) : Option (ParsedTimesData × JsonMap) := do
  let fakeTime ← P.parseDatetime "2015-01-01T00:00:00.000Z"
  let versionsMap ← (← j.get "versions").asObject
  let versionTimes ← versionsMap.mapM fun v => do
    let vObj ← v.2.asObject
    guard (¬ vObj.containsKey "time" ∧ ¬ vObj.containsKey "ctime" ∧ ¬ vObj.containsKey "mtime")
    return (← P.parseSemver v.1, fakeTime)
  return (⟨fakeTime, fakeTime, (ExtTreeMap.ofList versionTimes compare, ∅)⟩, j)

def deserializeTimes (j : JsonMap) : Option (ParsedTimesData × JsonMap) :=
  if j.containsKey "time" then P.deserializeTimesNormal j
  else if j.containsKey "ctime" then
    if j.containsKey "mtime" then P.deserializeTimesCtime j else none
  else P.deserializeTimesMissingFakeIt j

/-- A latest tag that does not parse goes back into the tags. -/
def deserializeLatestTag (distTags : JsonMap) : Option (Option Semver × JsonMap) := do
  let (latest, distTags) ← distTags.removeKeyUnwrapType Value.asString "latest"
  match latest with
  | none => return (none, distTags)
  | some latestStr =>
    match P.parseSemver latestStr with
    | some v => return (some v, distTags)
    | none => return (none, distTags.insert "latest" (.string latestStr))

/-- The latest version has to be one of the versions; otherwise it goes back into the tags. -/
def checkLatest (latest : Option Semver) (versions : AllVersionPackuments) (distTags : JsonMap) :
    Option Semver × JsonMap :=
  match latest with
  | none => (none, distTags)
  | some l =>
    if l ∈ versions then (some l, distTags)
    else (none, distTags.insert "latest" (.string l.toString))

def deserializePackumentBlobNormal (j : JsonMap) :
    Option (PackageOnlyPackument × AllVersionPackuments) := do
  let (distTags, j) ← j.removeKeyUnwrapType Value.asObject "dist-tags"
  let (latest, distTags) ← P.deserializeLatestTag (← distTags)
  let (times, j) ← P.deserializeTimes j
  let versionTimes := onlyKeepOkVersionTimes times.versionTimes
  let (versionsMap, _) ← j.removeKeyUnwrapType Value.asObject "versions"
  let versions ← (← versionsMap).mapM fun e => do
    let version ← P.parseSemver e.1
    return (version, ← P.deserializeVersionBlob (← e.2.asObject) version versionTimes times.modified)
  let versionPackuments : AllVersionPackuments := ExtTreeMap.ofList versions compare
  let extraVersionTimes := versionTimes.filter fun v _ => v ∉ versionPackuments
  let (latest, distTags) := checkLatest latest versionPackuments distTags
  return (.normal latest times.created times.modified distTags extraVersionTimes, versionPackuments)

def deserializePackumentBlobUnpublished (j : JsonMap) :
    Option (PackageOnlyPackument × AllVersionPackuments) := do
  guard (¬ j.containsKey "dist-tags" ∧ ¬ j.containsKey "versions")
  let time ← (← j.get "time").asObject
  let (unpublishedBlob, time) := time.remove "unpublished"
  let (times, _) ← P.deserializeTimes (j.insert "time" (.object time))
  return (.unpublished times.created times.modified (← unpublishedBlob)
    (onlyKeepOkVersionTimes times.versionTimes), ∅)

def deserializePackumentDoc (doc : JsonMap) (checkDeleted : Option Bool)
    (checkPackageName : Option String) :
    Option (String × PackageOnlyPackument × AllVersionPackuments) := do
  let (docId, doc) ← doc.removeKeyUnwrapType Value.asString "_id"
  let docId ← docId
  let (docDeleted, doc) ← doc.removeKeyUnwrapType Value.asBool "_deleted"
  let docDeleted := docDeleted.getD false
  let (rev, doc) ← doc.removeKeyUnwrapType Value.asString "_rev"
  guard rev.isSome
  guard (∀ d ∈ checkDeleted, d = docDeleted)
  guard (∀ n ∈ checkPackageName, n = docId)
  if docDeleted then
    guard doc.isEmpty
    return (docId, .deleted, ∅)
  let unpublished ← match doc.get "time" with
    | none => some false
    | some time => time.asObject.map fun t => t.containsKey "unpublished"
  if unpublished then
    let (packageData, versionsData) ← P.deserializePackumentBlobUnpublished doc
    return (docId, packageData, versionsData)
  if doc.containsKey "dist-tags" then
    let (packageData, versionsData) ← P.deserializePackumentBlobNormal doc
    return (docId, packageData, versionsData)
  guard (¬ doc.containsKey "time" ∧ ¬ doc.containsKey "versions")
  return (docId, .missingData, ∅)

/-- The outer `none` is a panic, the inner one a change that is skipped. -/
def deserializeChange (c : Change) :
    Option (Option (String × PackageOnlyPackument × AllVersionPackuments)) := do
  let changeJson ← c.rawJson.asObject
  let (del, changeJson) ← changeJson.removeKeyUnwrapType Value.asBool "deleted"
  let del ← del
  let (packageName, changeJson) ← changeJson.removeKeyUnwrapType Value.asString "id"
  let packageName ← packageName
  if packageName = "_design/app" ∨ packageName = "_design/scratch" then
    return none
  let (doc, _) ← changeJson.removeKeyUnwrapType Value.asObject "doc"
  let parsed ← P.deserializePackumentDoc (← doc) (some del) (some packageName)
  return some parsed

end Parsers

/-- Parsers for the few texts that the changes below contain. -/
def sampleParsers : Parsers where
  parseSemver s :=
    if s = "1.0.0" then some ⟨1, 0, 0, [], []⟩
    else if s = "2.0.0" then some ⟨2, 0, 0, [], []⟩
    else none
  parseSpecViaNodeCached _ := none
  parseFromRfc3339 s := if s = "2015-01-01T00:00:00.000Z" then some 1420070400000 else none
  deserializeRepoBlob _ := none
  display _ := ""

/-- A change of a package with the given versions, each with the URL of its tarball. -/
def sampleChange (seq : ℤ) (distTags : JsonMap) (versions : List (String × String)) : Change where
  seq := seq
  rawJson := .object [("deleted", .bool false), ("id", .string "p"), ("doc", .object [
    ("_id", .string "p"), ("_rev", .string "1"), ("dist-tags", .object distTags),
    ("versions", .object (versions.map fun e =>
      (e.1, .object [("dist", .object [("tarball", .string e.2)])])))])]

end NpmFollower.DiffLogBuilder
