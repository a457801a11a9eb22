import NpmFollower.PostgresDb.DiffLog
import NpmFollower.RelationalDbBuilder.RelationalDbAccessor

/-! # Processing the diff log

The entry processor replays the diff log into the relational tables. It keeps
the history of states of each package and version, and counts for every
dependency the live versions that have it.
-/

namespace NpmFollower.RelationalDbBuilder

open Std PostgresDb

/-- The derived serialisation of a tag: its variant as the key. -/
def prereleaseTagToValue : PrereleaseTag → Value
  | .string s => .object [("String", .string s)]
  | .int i => .object [("Int", .number (if 0 ≤ i then .posInt i.toNat else .negInt i))]

def intToValue (i : ℤ) : Value := .number (if 0 ≤ i then .posInt i.toNat else .negInt i)

def semverToValue (v : Semver) : Value :=
  .object [("major", intToValue v.major), ("minor", intToValue v.minor), ("bug", intToValue v.bug),
    ("prerelease", .array (v.prerelease.map prereleaseTagToValue)),
    ("build", .array (v.build.map Value.string))]

namespace Env

variable (E : Env)

/-- `to_value` of a `BTreeMapSerializedAsString`, whose entries are pairs. -/
def timesAsPairs (times : BTreeMap Semver DateTime) : Value :=
  .object [("inner", .array (times.toList.map fun e =>
    .array [semverToValue e.1, .string (E.dateTimeText e.2)]))]

end Env

/-- `to_value` of the map itself, which fails on a key that is not a string. -/
def timesAsObject (times : BTreeMap Semver DateTime) : Option Value :=
  if times.isEmpty then some (.object []) else none

namespace EntryProcessor

open RelationalDbAccessor

variable {C : LruCaches} (E : Env)

def newPackage (package : String) (seq diffEntryId : ℤ) :
    PackageOnlyPackument → Except Panic NewPackage
  | .normal latest created modified otherDistTags extraVersionTimes =>
    if latest.isSome then .error .latestIsNotNone
    else .ok {
      name := package
      currentPackageStateType := .normal
      packageStateHistory := [⟨.normal, seq, diffEntryId, some created⟩]
      distTagLatestVersion := none
      created := some created
      modified := some modified
      otherDistTags := some (.object otherDistTags)
      otherTimeData := some (E.timesAsPairs extraVersionTimes)
      unpublishedData := none }
  | .unpublished created modified unpublishedBlob extraVersionTimes => .ok {
      name := package
      currentPackageStateType := .unpublished
      packageStateHistory := [⟨.unpublished, seq, diffEntryId, some created⟩]
      distTagLatestVersion := none
      created := some created
      modified := some modified
      otherDistTags := none
      otherTimeData := some (E.timesAsPairs extraVersionTimes)
      unpublishedData := some unpublishedBlob }
  -- `deleted` and `missingData` are treated alike
  | _ => .ok {
      name := package
      currentPackageStateType := .deleted
      packageStateHistory := [⟨.deleted, seq, diffEntryId, none⟩]
      distTagLatestVersion := none
      created := none
      modified := none
      otherDistTags := none
      otherTimeData := none
      unpublishedData := none }

def createPackage (package : String) (data : PackageOnlyPackument) (seq diffEntryId : ℤ) :
    Run C Unit := do
  let newPackage ← liftM (newPackage E package seq diffEntryId data)
  insertNewPackage E newPackage

def updatedPackage (oldPackage : Package) (packageName : String) (seq diffEntryId : ℤ) :
    PackageOnlyPackument → Run C NewPackage
  | .normal latest created modified otherDistTags extraVersionTimes => do
    let latestId ← latest.mapM fun latestSemver => getVersionIdBySemver oldPackage.id latestSemver
    return {
      name := packageName
      currentPackageStateType := .normal
      packageStateHistory :=
        oldPackage.packageStateHistory ++ [⟨.normal, seq, diffEntryId, some modified⟩]
      distTagLatestVersion := latestId
      created := some created
      modified := some modified
      otherDistTags := some (.object otherDistTags)
      otherTimeData := some (E.timesAsPairs extraVersionTimes)
      unpublishedData := none }
  | .unpublished created modified unpublishedBlob extraVersionTimes => do
    let otherTimeData ← expect (.assertion "key must be a string") (timesAsObject extraVersionTimes)
    return {
      name := packageName
      currentPackageStateType := .unpublished
      packageStateHistory :=
        oldPackage.packageStateHistory ++ [⟨.unpublished, seq, diffEntryId, some modified⟩]
      distTagLatestVersion := oldPackage.distTagLatestVersion
      created := some created
      modified := some modified
      otherDistTags := oldPackage.otherDistTags
      otherTimeData := some otherTimeData
      unpublishedData := some unpublishedBlob }
  | _ => return {
      name := packageName
      currentPackageStateType := .deleted
      packageStateHistory :=
        oldPackage.packageStateHistory ++ [⟨.deleted, seq, diffEntryId, none⟩]
      distTagLatestVersion := oldPackage.distTagLatestVersion
      created := oldPackage.created
      modified := oldPackage.modified
      otherDistTags := oldPackage.otherDistTags
      otherTimeData := oldPackage.otherTimeData
      unpublishedData := oldPackage.unpublishedData }

def updatePackage (packageName : String) (data : PackageOnlyPackument) (seq diffEntryId : ℤ) :
    Run C Unit := do
  let oldPackage ← getPackageByName E packageName
  let newPackage ← updatedPackage E oldPackage packageName seq diffEntryId data
  RelationalDbAccessor.updatePackage E oldPackage.id packageName (oldPackage.diff newPackage)

def patchPackageRefs (package : String) : Run C Unit := do
  let packageId ← getPackageIdByName package
  updateDepsMissingPack E package packageId

/-- `assert_unique` on the names of the dependencies. -/
def assertUnique (deps : List (String × Spec)) : Run C Unit :=
  guardOr (.assertion "set.insert(item)") ((deps.map Prod.fst).Nodup)

def newDependencies (depType : DependencyType) (deps : List (String × Spec)) :
    Run C (List (NewDependency × DependencyType)) :=
  deps.mapM fun (dstName, spec) => do
    let dstId ← maybeGetPackageIdByName dstName
    return (.create E.digests dstName dstId spec.raw spec.parsed depType, depType)

/-- The ids of one type, out of all the ids of a version. -/
def idsOf (depType : DependencyType) (ids : List ℤ) (types : List DependencyType) : List ℤ :=
  ((ids.zip types).filter fun e => e.2 = depType).map Prod.fst

def createVersion (package : String) (version : Semver) (data : VersionOnlyPackument)
    (seq diffEntryId : ℤ) : Run C Unit := do
  assertUnique data.prodDependencies
  assertUnique data.devDependencies
  assertUnique data.peerDependencies
  assertUnique data.optionalDependencies
  let packageId ← getPackageIdByName package
  let prodToInsert ← newDependencies E .prod data.prodDependencies
  let devToInsert ← newDependencies E .dev data.devDependencies
  let peerToInsert ← newDependencies E .peer data.peerDependencies
  let optionalToInsert ← newDependencies E .optional data.optionalDependencies
  let (depsToInsert, toInsertTypes) :=
    (prodToInsert ++ devToInsert ++ peerToInsert ++ optionalToInsert).unzip
  let insertedIds ← insertOrIncDependencies depsToInsert
  insertNewVersion {
    packageId, semver := version
    currentVersionStateType := .normal
    versionStateHistory := [⟨.normal, seq, diffEntryId, some data.time⟩]
    tarballUrl := data.dist.tarballUrl
    repositoryRaw := data.repository.map (·.raw)
    repositoryParsed := data.repository.map (·.info)
    created := data.time
    extraMetadata := .object data.extraMetadata.toList
    prodDependencies := idsOf .prod insertedIds toInsertTypes
    devDependencies := idsOf .dev insertedIds toInsertTypes
    peerDependencies := idsOf .peer insertedIds toInsertTypes
    optionalDependencies := idsOf .optional insertedIds toInsertTypes }

/-- The dependencies of a version did not change: as many, and `assert_dep_eq` on each. -/
def assertDepsEq (old : List Dependency) (new : List (String × Spec)) : Run C Unit := do
  guardOr (.assertion "current_deps.len() == new_deps.len()") (old.length = new.length)
  (old.zip new).forM fun (oldDep, dstName, spec) => do
    guardOr (.assertion "Dependency package name changed") (oldDep.dstPackageName = dstName)
    guardOr (.assertion "Dependency raw spec changed") (oldDep.rawSpec == spec.raw)
    guardOr (.assertion "Dependency parsed spec changed") (oldDep.spec = spec.parsed)

def assertRepoEq (currentData : Version) : Option RepositoryInfo → Run C Unit
  | some newRepoInfo => do
    let currentRepoRaw ← expect (.assertion "Repo changed (1)") currentData.repositoryRaw
    let currentRepoParsed ← expect (.assertion "Repo changed (2)") currentData.repositoryParsed
    guardOr (.assertion "Repo changed (3)") (currentRepoRaw == newRepoInfo.raw)
    guardOr (.assertion "Repo changed (4)") (currentRepoParsed = newRepoInfo.info)
  | none => do
    guardOr (.assertion "Repo changed (5)") currentData.repositoryRaw.isNone
    guardOr (.assertion "Repo changed (6)") currentData.repositoryParsed.isNone

/-- The current rows of the dependencies of a version. -/
def currentDeps (depType : DependencyType) (currentData : Version) : Run C (List Dependency) :=
  (currentData.dependencies depType).mapM fun id => getDependencyById id

def markAll (mark : Dependency → DependencyType → Dependency) (depType : DependencyType)
    (deps : List Dependency) : List NewDependency :=
  deps.map fun d => (mark d depType).asNew

def updateVersion (packageName : String) (version : Semver) (newPackData : VersionOnlyPackument)
    (seq diffEntryId : ℤ) : Run C Unit := do
  let packageId ← getPackageIdByName packageName
  let versionId ← getVersionIdBySemver packageId version
  let currentData ← getVersionById versionId
  let currentProdDeps ← currentDeps .prod currentData
  let currentDevDeps ← currentDeps .dev currentData
  let currentPeerDeps ← currentDeps .peer currentData
  let currentOptionalDeps ← currentDeps .optional currentData
  assertDepsEq currentProdDeps newPackData.prodDependencies
  assertDepsEq currentDevDeps newPackData.devDependencies
  assertDepsEq currentPeerDeps newPackData.peerDependencies
  assertDepsEq currentOptionalDeps newPackData.optionalDependencies
  guardOr (.assertion "Tarball url changed")
    (currentData.tarballUrl = newPackData.dist.tarballUrl)
  assertRepoEq currentData newPackData.repository
  if currentData.currentVersionStateType ≠ .normal then
    guardOr (.assertion "current_version_state_type == Deleted")
      (currentData.currentVersionStateType = .deleted)
    discard <| insertOrIncDependencies (markAll .markAsAdd .prod currentProdDeps)
    discard <| insertOrIncDependencies (markAll .markAsAdd .dev currentDevDeps)
    discard <| insertOrIncDependencies (markAll .markAsAdd .peer currentPeerDeps)
    discard <| insertOrIncDependencies (markAll .markAsAdd .optional currentOptionalDeps)
    query (Versions.undeleteToNormalVersion versionId seq diffEntryId none)
  let newExtraMetadata := Value.object newPackData.extraMetadata.toList
  if currentData.extraMetadata != newExtraMetadata then
    query (Versions.setVersionExtraMetadata versionId newExtraMetadata)

/-- Nothing is checked about the state of the version. -/
def deleteVersion (packageName : String) (version : Semver) (seq diffEntryId : ℤ) :
    Run C Unit := do
  let packageId ← getPackageIdByName packageName
  let versionId ← getVersionIdBySemver packageId version
  let currentData ← getVersionById versionId
  let deleteProdDeps ← currentDeps .prod currentData
  let deleteDevDeps ← currentDeps .dev currentData
  let deletePeerDeps ← currentDeps .peer currentData
  let deleteOptionalDeps ← currentDeps .optional currentData
  discard <| insertOrIncDependencies (markAll .markAsDelete .prod deleteProdDeps)
  discard <| insertOrIncDependencies (markAll .markAsDelete .dev deleteDevDeps)
  discard <| insertOrIncDependencies (markAll .markAsDelete .peer deletePeerDeps)
  discard <| insertOrIncDependencies (markAll .markAsDelete .optional deleteOptionalDeps)
  query (Versions.deleteVersion versionId seq diffEntryId none)

def processEntry (e : DiffLogEntry) : Run C Unit :=
  match e.instr with
  | .createPackage data => createPackage E e.packageName data e.seq e.id
  | .updatePackage data => updatePackage E e.packageName data e.seq e.id
  | .patchPackageReferences => patchPackageRefs E e.packageName
  | .createVersion v data => createVersion E e.packageName v data e.seq e.id
  | .updateVersion v data => updateVersion e.packageName v data e.seq e.id
  | .deleteVersion v => deleteVersion e.packageName v e.seq e.id

end EntryProcessor

end NpmFollower.RelationalDbBuilder
