import NpmFollower.PostgresDb.Connection
import NpmFollower.RelationalDbBuilder.LruCache

/-! # The accessor of the relational tables

The accessor answers from its caches where it can. Ids and packages are written
through; the counters of a dependency are written back when its entry is evicted
or the caches are flushed.
-/

namespace NpmFollower.RelationalDbBuilder

open Std PostgresDb

structure DependencyState where
  id : ℤ
  counts : FreqCounts
deriving DecidableEq

/-- The caches of the accessor, each with its own capacity. -/
structure LruCaches where
  packageId : LruCache String (Option ℤ)
  packageData : LruCache String Package
  versionId : LruCache (ℤ × Semver) ℤ
  dependencyStates : LruCache String DependencyState

structure LruCaches.Lawful (C : LruCaches) : Prop where
  packageId : C.packageId.Lawful
  packageData : C.packageData.Lawful
  versionId : C.versionId.Lawful
  dependencyStates : C.dependencyStates.Lawful

/-- Caches of one capacity. -/
def LruCaches.ofCapacity (capacity : ℕ+) : LruCaches where
  packageId := .ofCapacity _ _ capacity
  packageData := .ofCapacity _ _ capacity
  versionId := .ofCapacity _ _ capacity
  dependencyStates := .ofCapacity _ _ capacity

theorem LruCaches.ofCapacity_lawful (capacity : ℕ+) : (ofCapacity capacity).Lawful where
  packageId := LruCache.ofCapacity_lawful capacity
  packageData := LruCache.ofCapacity_lawful capacity
  versionId := LruCache.ofCapacity_lawful capacity
  dependencyStates := LruCache.ofCapacity_lawful capacity

structure RelationalDbAccessor (C : LruCaches) where
  packageIdCache : C.packageId.State
  packageDataCache : C.packageData.State
  versionIdCache : C.versionId.State
  dependencyStatesCache : C.dependencyStates.State
  needFlushSet : ExtTreeSet String compare

/-- The accessor with the database it is used on. -/
structure World (C : LruCaches) where
  accessor : RelationalDbAccessor C
  conn : Db

/-- What the builder calls outside of itself. -/
structure Env where
  digests : Digests
  deepSizeOf : Package → ℕ
  /-- The text of a time in JSON. -/
  dateTimeText : DateTime → String

abbrev Run (C : LruCaches) := StateT (World C) (Except Panic)

namespace RelationalDbAccessor

variable {C : LruCaches}

def new : RelationalDbAccessor C where
  packageIdCache := C.packageId.new
  packageDataCache := C.packageData.new
  versionIdCache := C.versionId.new
  dependencyStatesCache := C.dependencyStates.new
  needFlushSet := ∅

end RelationalDbAccessor

/-- A database with nothing cached. -/
def uncached (C : LruCaches) (db : Db) : World C := ⟨.new, db⟩

namespace RelationalDbAccessor

def query {α : Type} (q : Query α) : Run C α := fun w =>
  match q w.conn with
  | .ok (a, conn) => .ok (a, { w with conn })
  | .error e => .error e

def update (f : RelationalDbAccessor C → RelationalDbAccessor C) : Run C Unit :=
  modify fun w => { w with accessor := f w.accessor }

def putPackageId (name : String) (id : Option ℤ) : Run C Unit :=
  update fun a => { a with packageIdCache := C.packageId.put a.packageIdCache name id }

def putPackageData (E : Env) (package : Package) : Run C Unit :=
  update fun a => { a with
    packageDataCache := C.packageData.putWithCost a.packageDataCache package.name package
      (E.deepSizeOf package) }

def putVersionId (packageId : ℤ) (v : Semver) (id : ℤ) : Run C Unit :=
  update fun a => { a with versionIdCache := C.versionId.put a.versionIdCache (packageId, v) id }

def cachedPackageId (name : String) : Run C (Option (Option ℤ)) := do
  let (found, cache) := C.packageId.get (← get).accessor.packageIdCache name
  update fun a => { a with packageIdCache := cache }
  return found

def cachedPackageData (name : String) : Run C (Option Package) := do
  let (found, cache) := C.packageData.get (← get).accessor.packageDataCache name
  update fun a => { a with packageDataCache := cache }
  return found

def cachedVersionId (packageId : ℤ) (v : Semver) : Run C (Option ℤ) := do
  let (found, cache) := C.versionId.get (← get).accessor.versionIdCache (packageId, v)
  update fun a => { a with versionIdCache := cache }
  return found

def popPackageData (name : String) : Run C (Option Package) := do
  let (found, cache) := C.packageData.pop (← get).accessor.packageDataCache name
  update fun a => { a with packageDataCache := cache }
  return found

def promotePackageData (name : String) : Run C Unit :=
  update fun a => { a with packageDataCache := C.packageData.promote a.packageDataCache name }

def getPackageByName (E : Env) (packageName : String) : Run C Package := do
  match ← cachedPackageData packageName with
  | some package =>
    putPackageId packageName (some package.id)
    return package
  | none =>
    match ← cachedPackageId packageName with
    | some packageId =>
      let packageId ← expect .packageDoesNotExist packageId
      let package ← query (Packages.getPackage packageId)
      putPackageData E package
      return package
    | none =>
      let package ← query (Packages.getPackageByName packageName)
      putPackageData E package
      putPackageId packageName (some package.id)
      return package

def maybeGetPackageIdByName (package : String) : Run C (Option ℤ) := do
  match ← cachedPackageId package with
  | some packageId => return packageId
  | none =>
    let packageId ← query (Packages.maybeGetPackageIdByName package)
    putPackageId package packageId
    return packageId

def getVersionIdBySemver (packageId : ℤ) (v : Semver) : Run C ℤ := do
  match ← cachedVersionId packageId v with
  | some versionId => return versionId
  | none =>
    let versionId ← query (Versions.getVersionIdBySemver packageId v)
    putVersionId packageId v versionId
    return versionId

def insertNewPackage (E : Env) (newPackage : NewPackage) : Run C Unit := do
  let inserted ← query (Packages.insertNewPackage newPackage)
  putPackageId inserted.name (some inserted.id)
  putPackageData E inserted

/-- A package that is not cached is not cached by its update. -/
def updatePackage (E : Env) (packageId : ℤ) (packageName : String) (diff : PackageUpdate) :
    Run C Unit := do
  match ← popPackageData packageName with
  | some e => putPackageData E (e.applyDiff diff)
  | none => pure ()
  query (Packages.updatePackage packageId diff)

def updateDepsMissingPack (E : Env) (packageName : String) (packageId : ℤ) : Run C Unit := do
  putPackageId packageName (some packageId)
  promotePackageData packageName
  query (Dependencies.updateDepsMissingPack E.digests packageName packageId)

def insertNewVersion (newVersion : NewVersion) : Run C Unit := do
  let id ← query (Versions.insertNewVersion newVersion)
  putVersionId newVersion.packageId newVersion.semver id

/-- The entry that a push has evicted is written back if it has to be. -/
def flushEvicted (evicted : Option (String × DependencyState)) : Run C Unit := do
  match evicted with
  | none => pure ()
  | some (hash, state) =>
    if hash ∈ (← get).accessor.needFlushSet then
      update fun a => { a with needFlushSet := a.needFlushSet.erase hash }
      query (Dependencies.setDependencyCounts state.id state.counts)

def insertOrIncDependency (dep : NewDependency) : Run C ℤ := do
  let hash := dep.md5digestWithVersion
  match C.dependencyStates.getMut (← get).accessor.dependencyStatesCache hash with
  | some (state, write) =>
    update fun a => { a with needFlushSet := a.needFlushSet.insert hash }
    let counts ← expect .overflow (state.counts.add dep.counts)
    update fun a => { a with dependencyStatesCache := write { state with counts } }
    return state.id
  | none =>
    let (id, counts) ← query (Dependencies.insertDependencyIncCounts dep)
    let (evicted, cache) :=
      C.dependencyStates.push (← get).accessor.dependencyStatesCache hash ⟨id, counts⟩
    update fun a => { a with dependencyStatesCache := cache }
    flushEvicted evicted
    return id

def insertOrIncDependencies (deps : List NewDependency) : Run C (List ℤ) :=
  deps.mapM insertOrIncDependency

def flushHash (hash : String) : Run C Unit := do
  let state ← expect (.needsToBeFlushedButNotInCache hash)
    (C.dependencyStates.peek (← get).accessor.dependencyStatesCache hash)
  query (Dependencies.setDependencyCounts state.id state.counts)

/-- The cache is kept, and everything in it is flushed. -/
def flushCaches : Run C Unit := do
  (← get).accessor.needFlushSet.toList.forM flushHash
  update fun a => { a with needFlushSet := ∅ }

def getVersionById (versionId : ℤ) : Run C Version := query (Versions.getVersionById versionId)

def getDependencyById (depId : ℤ) : Run C Dependency :=
  query (Dependencies.getDependencyById depId)

def getPackageIdByName (package : String) : Run C ℤ := do
  expect .packageShouldExist (← maybeGetPackageIdByName package)

end RelationalDbAccessor

end NpmFollower.RelationalDbBuilder
