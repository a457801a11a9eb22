import NpmFollower.Library.Rows
import NpmFollower.PostgresDb.Packages
import NpmFollower.PostgresDb.Dependencies

/-! # The relational tables and the statements on them

A statement that fails is a panic, as every caller unwraps its result. Postgres
takes the next value of an identity column before it looks for a conflict, so an
insert that turns into an update uses a value up. Values that a column type
refuses are left out: a run that meets one only stops earlier.
-/

namespace NpmFollower.PostgresDb

inductive Panic where
  | packageWithIdNotFound (id : ℤ)
  | errorGettingPackageByName
  | packageDoesNotExist
  | packageShouldExist
  | errorGettingVersionIdBySemver
  | latestIsNotNone
  | needsToBeFlushedButNotInCache (hash : String)
  | overflow
  | database (message : String)
  | assertion (message : String)
deriving DecidableEq

/-- The panics on a package or a version that has no row, and on a package created with a latest
version. -/
def Panic.isMissing : Panic → Bool
  | packageWithIdNotFound _ => true
  | errorGettingPackageByName => true
  | packageDoesNotExist => true
  | packageShouldExist => true
  | errorGettingVersionIdBySemver => true
  | latestIsNotNone => true
  | _ => false

/-- The panics on a failed statement, an overflow or an assertion about the data. -/
def Panic.isOther : Panic → Bool
  | overflow => true
  | database _ => true
  | assertion _ => true
  | _ => false

/-- A table with an identity column: its rows, oldest first, and the next value of the column. -/
structure Table (ρ : Type) where
  rows : List ρ
  nextId : ℤ

namespace Table

def empty {ρ : Type} : Table ρ := ⟨[], 1⟩

def nextval {ρ : Type} (t : Table ρ) : Option (ℤ × Table ρ) :=
  if t.nextId < 2 ^ 63 then some (t.nextId, { t with nextId := t.nextId + 1 }) else none

def insert {ρ : Type} (t : Table ρ) (row : ρ) : Table ρ := { t with rows := t.rows ++ [row] }

end Table

structure Db where
  packages : Table Package
  versions : Table Version
  dependencies : Table Dependency

def Db.empty : Db := ⟨.empty, .empty, .empty⟩

abbrev Query := StateT Db (Except Panic)

/-- `expect` on a result. -/
def expect {α : Type} {m : Type → Type} [Monad m] [MonadExceptOf Panic m] (p : Panic) :
    Option α → m α
  | some a => pure a
  | none => throw p

def guardOr {m : Type → Type} [Monad m] [MonadExceptOf Panic m] (p : Panic) (b : Bool) : m Unit :=
  if b then pure () else throw p

theorem expect_apply {σ α : Type} (p : Panic) (o : Option α) (s : σ) :
    (expect p o : StateT σ (Except Panic) α) s = o.elim (.error p) fun a => .ok (a, s) := by
  cases o <;> rfl

theorem guardOr_apply {σ : Type} (p : Panic) (b : Bool) (s : σ) :
    (guardOr p b : StateT σ (Except Panic) Unit) s = if b then .ok ((), s) else .error p := by
  cases b <;> rfl

namespace Packages

def foreignKey (db : Db) (id : Option ℤ) : Bool := id.all fun id => db.packages.rows.any (·.id = id)

def getPackage (packageId : ℤ) : Query Package := do
  expect (.packageWithIdNotFound packageId) (Rows.find Package.id (← get).packages.rows packageId)

def getPackageByName (name : String) : Query Package := do
  expect .errorGettingPackageByName (Rows.find (fun p => p.name) (← get).packages.rows name)

def maybeGetPackageIdByName (name : String) : Query (Option ℤ) := do
  return (Rows.find (fun p => p.name) (← get).packages.rows name).map (·.id)

def insertNewPackage (package : NewPackage) : Query Package := do
  let db ← get
  let (id, packages) ← expect (.database "Error inserting new package") db.packages.nextval
  guardOr (.database "Error inserting new package")
    (package.check && !db.packages.rows.any (·.name = package.name) &&
      package.distTagLatestVersion.all fun v => db.versions.rows.any (·.id = v))
  let row : Package := { package with id }
  set { db with packages := packages.insert row }
  return row

def updatePackage (packageId : ℤ) (update : PackageUpdate) : Query Unit := do
  let db ← get
  let updated := (db.packages.rows.filter (·.id = packageId)).map (·.applyDiff update)
  guardOr (.database "Error updating package")
    (updated.all fun p =>
      p.check && p.distTagLatestVersion.all fun v => db.versions.rows.any (·.id = v))
  set { db with packages := { db.packages with
    rows := Rows.updateWhere Package.id db.packages.rows packageId (·.applyDiff update) } }

end Packages

namespace Versions

def getVersionById (versionId : ℤ) : Query Version := do
  expect (.database "Error getting package") (Rows.find Version.id (← get).versions.rows versionId)

def getVersionIdBySemver (packageId : ℤ) (v : Semver) : Query ℤ := do
  let row ← expect .errorGettingVersionIdBySemver
    (Rows.find (fun row => (row.packageId, row.semver)) (← get).versions.rows (packageId, v))
  return row.id

def insertNewVersion (newVersion : NewVersion) : Query ℤ := do
  let db ← get
  let (id, versions) ← expect (.database "Error saving new version") db.versions.nextval
  guardOr (.database "Error saving new version")
    (newVersion.check && Packages.foreignKey db (some newVersion.packageId) &&
      !db.versions.rows.any fun row =>
        row.packageId = newVersion.packageId && row.semver = newVersion.semver)
  set { db with versions := versions.insert { newVersion with id } }
  return id

def updateWhereId (versionId : ℤ) (f : Version → Version) : Query Unit :=
  modify fun db => { db with
    versions := { db.versions with
      rows := Rows.updateWhere Version.id db.versions.rows versionId f } }

def setVersionExtraMetadata (versionId : ℤ) (newExtraMetadata : Value) : Query Unit := do
  guardOr (.assertion "Error updating version extra metadata")
    (((← get).versions.rows.filter (·.id = versionId)).length = 1)
  updateWhereId versionId fun v => { v with extraMetadata := newExtraMetadata }

/-- The body of `delete_version` and `undelete_to_normal_version`. -/
def setState (state : VersionStateType) (versionId seq diffEntryId : ℤ)
    (time : Option DateTime) : Query Unit := do
  let currentData ← getVersionById versionId
  let history := currentData.versionStateHistory ++ [⟨state, seq, diffEntryId, time⟩]
  updateWhereId versionId fun v => { v with
    currentVersionStateType := state
    versionStateHistory := history }

def deleteVersion (versionId seq diffEntryId : ℤ) (deleteTime : Option DateTime) : Query Unit :=
  setState .deleted versionId seq diffEntryId deleteTime

def undeleteToNormalVersion (versionId seq diffEntryId : ℤ) (undeleteTime : Option DateTime) :
    Query Unit :=
  setState .normal versionId seq diffEntryId undeleteTime

end Versions

namespace Dependencies

def updateDepsMissingPack (D : Digests) (packName : String) (packId : ℤ) : Query Unit := do
  let db ← get
  let missing (d : Dependency) : Bool :=
    d.md5digest = D.sha256 packName && d.dstPackageIdIfExists.isNone && d.dstPackageName = packName
  guardOr (.database "Error updating dependencies")
    (!db.dependencies.rows.any missing || Packages.foreignKey db (some packId))
  set { db with dependencies := { db.dependencies with
    rows := db.dependencies.rows.map fun (d : Dependency) =>
      if missing d then { d with dstPackageIdIfExists := some packId } else d } }

/-- `INSERT .. ON CONFLICT .. DO UPDATE`, with the counts that the row has afterwards. -/
def insertDependencyIncCounts (dep : NewDependency) : Query (ℤ × FreqCounts) := do
  let db ← get
  let (id, table) ← expect (.database "Error inserting dependency") db.dependencies.nextval
  match Rows.find (fun d => d.md5digestWithVersion) table.rows dep.md5digestWithVersion with
  | some row =>
    let counts ← expect (.database "Error inserting dependency") (row.counts.add dep.counts)
    set { db with dependencies := { table with
      rows := Rows.updateWhere (fun d : Dependency => d.md5digestWithVersion) table.rows
        dep.md5digestWithVersion fun d => { d with counts } } }
    return (row.id, counts)
  | none =>
    guardOr (.database "Error inserting dependency")
      (Packages.foreignKey db dep.dstPackageIdIfExists)
    set { db with dependencies := table.insert { dep with id } }
    return (id, dep.counts)

def setDependencyCounts (depId : ℤ) (counts : FreqCounts) : Query Unit := do
  let db ← get
  guardOr (.assertion "rows = 1") ((db.dependencies.rows.filter (·.id = depId)).length = 1)
  set { db with dependencies := { db.dependencies with
    rows := Rows.updateWhere Dependency.id db.dependencies.rows depId fun d =>
      { d with counts } } }

def getDependencyById (depId : ℤ) : Query Dependency := do
  expect (.database "Error getting dep by id")
    (Rows.find Dependency.id (← get).dependencies.rows depId)

end Dependencies

end NpmFollower.PostgresDb
