import NpmFollower.DownloadMetrics.BulkQuery
import NpmFollower.PostgresDb.CustomTypes
import NpmFollower.PostgresDb.Transaction

/-! # Inserting the metrics of packages

`insert_from_packages` scans the packages by id, queries the new ones and those that
were rate-limited, and writes the answers with its place. The rate-limited packages
are a set in Redis, which no transaction covers.
-/

namespace NpmFollower.DownloadMetrics

open PostgresDb

/-- `columns` stands for the columns that are only part of a package's text in Redis. -/
structure Package where
  id : ℤ
  name : String
  currentPackageStateType : PackageStateType
  columns : String
deriving DecidableEq

/-- The packages that have a row in `download_metrics`, and `download_metrics_pkg_seq`. -/
structure Postgres where
  metrics : List ℤ
  pkgSeq : Option ℤ

/-- `rateLimited` is the set in Redis. `reported` are the packages of which the API has said that
they do not exist, by an error or by leaving them out of a bulk answer. -/
structure Store where
  postgres : Postgres
  rateLimited : List Package
  reported : List ℤ

/-- What a turn of the loop carries behind its scan. -/
structure Batch where
  chunkPkgId : ℤ
  finished : Bool
  downloadMetrics : List Package
  redoRl : List Package

inductive RedisOp where
  | add
  | remove
deriving DecidableEq

inductive Phase where
  | scanning (chunkPkgId : ℤ) (normalPackages scopedPackages : List Package)
  | querying (b : Batch) (scopedHandles bulk : List Package)
  /-- The packages of a bulk answer, one after the other. -/
  | marking (b : Batch) (op : RedisOp) (pkgs : List Package)
  /-- In the transaction, with the packages that are still to be removed from the set. -/
  | inserting (b : Batch) (toRemove : List Package)

/-- `lost` are the packages whose rows a COMMIT that failed has not persisted. -/
structure Process where
  phase : Phase
  lost : List ℤ

structure State where
  store : Store
  process : Option Process

/-- A bulk answer tells which packages have counts in it. -/
inductive Action where
  | start
  | scan
  | scopedAnswer (answer : Except ApiError Unit)
  | bulkAnswer (answer : Except ApiError (Package → Bool))
  | mark
  | begin
  | remove
  | commit (error : Option DieselError)
  | kill

def hasNormalMetadata (pkg : Package) : Bool := pkg.currentPackageStateType = .normal

def maybeGetPackage (packages : List Package) (packageId : ℤ) : Option Package :=
  packages.find? fun pkg => pkg.id = packageId

def queryNextPkgId (packages : List Package) (pkgId : ℤ) : Option ℤ :=
  ((packages.map Package.id).filter fun id => pkgId < id).min?

namespace Store

def addRateLimitedPackage (s : Store) (pkg : Package) : Store :=
  { s with rateLimited := s.rateLimited.insert pkg }

def removeRateLimitedPackage (s : Store) (pkg : Package) : Store :=
  { s with rateLimited := s.rateLimited.filter (· ≠ pkg) }

def apply (s : Store) (pkg : Package) : RedisOp → Store
  | .add => s.addRateLimitedPackage pkg
  | .remove => s.removeRateLimitedPackage pkg

def report (s : Store) (pkgs : List Package) : Store :=
  { s with reported := s.reported ++ pkgs.map Package.id }

def place (s : Store) : ℤ := s.postgres.pkgSeq.getD 1

end Store

/-- One round of the inner loop, or its end. -/
def scanStep (packages : List Package) (postgres : Postgres) (chunkPkgId : ℤ)
    (normalPackages scopedPackages : List Package) : Phase :=
  if normalPackages.length < 128 ∧ scopedPackages.length < 128 then
    match maybeGetPackage packages chunkPkgId with
    | none =>
      match queryNextPkgId packages chunkPkgId with
      | none => .querying ⟨chunkPkgId, true, [], []⟩ scopedPackages normalPackages
      | some nextPkgId => .scanning nextPkgId normalPackages scopedPackages
    | some pkg =>
      if hasNormalMetadata pkg ∧ pkg.id ∉ postgres.metrics then
        if pkg.name.startsWith "@" then
          .scanning (chunkPkgId + 1) normalPackages (scopedPackages ++ [pkg])
        else .scanning (chunkPkgId + 1) (normalPackages ++ [pkg]) scopedPackages
      else .scanning (chunkPkgId + 1) normalPackages scopedPackages
  else .querying ⟨chunkPkgId, false, [], []⟩ scopedPackages normalPackages

def scopedStep (s : Store) (b : Batch) (pkg : Package) (handles bulk : List Package) :
    Except ApiError Unit → Option (Store × Phase)
  | .ok () =>
    some (s, .querying { b with downloadMetrics := b.downloadMetrics ++ [pkg] } handles bulk)
  | .error .rateLimit =>
    some (s.addRateLimitedPackage pkg, .querying { b with redoRl := b.redoRl ++ [pkg] } handles bulk)
  | .error .doesNotExist =>
    some ((s.report [pkg]).removeRateLimitedPackage pkg, .querying b handles bulk)
  | .error _ => none

def bulkStep (s : Store) (b : Batch) (pkgs : List Package) :
    Except ApiError (Package → Bool) → Option (Store × Phase)
  | .ok has =>
    some (s.report (pkgs.filter fun pkg => !has pkg),
      .querying { b with downloadMetrics := b.downloadMetrics ++ pkgs.filter has } [] [])
  | .error .rateLimit => some (s, .marking { b with redoRl := b.redoRl ++ pkgs } .add pkgs)
  | .error .doesNotExist => some (s.report pkgs, .marking b .remove pkgs)
  | .error _ => none

/-- The Postgres part of the closure of the transaction. -/
def insertMetrics (b : Batch) (postgres : Postgres) :
    Except DieselError (Unit × Bool) × Postgres :=
  (.ok ((), true), ⟨postgres.metrics ++ b.downloadMetrics.map Package.id, some b.chunkPkgId⟩)

/-- COMMIT and the way to the next turn. An `expect` that fails is a panic. -/
def commitStep (error : Option DieselError) (s : Store) (b : Batch) (lost : List ℤ) : State :=
  match runPsqlTransaction error (insertMetrics b) s.postgres with
  | (some (.ok ()), postgres) =>
    let lost := if error = none then lost else lost ++ b.downloadMetrics.map Package.id
    ⟨{ s with postgres }, if b.finished then none else
      some ⟨.scanning b.chunkPkgId [] b.redoRl, lost⟩⟩
  | (_, postgres) => ⟨{ s with postgres }, none⟩

/-- An error of the API that is not expected ends the process. -/
def step (packages : List Package) (s : State) : Action → Option State
  | .start =>
    if s.process.isNone then
      some ⟨s.store, some ⟨.scanning s.store.place [] s.store.rateLimited, []⟩⟩
    else none
  | .scan =>
    match s.process with
    | some ⟨.scanning chunkPkgId normalPackages scopedPackages, lost⟩ =>
      let phase := scanStep packages s.store.postgres chunkPkgId normalPackages scopedPackages
      some ⟨s.store, some ⟨phase, lost⟩⟩
    | _ => none
  | .scopedAnswer answer =>
    match s.process with
    | some ⟨.querying b (pkg :: handles) bulk, lost⟩ =>
      match scopedStep s.store b pkg handles bulk answer with
      | some (store, phase) => some ⟨store, some ⟨phase, lost⟩⟩
      | none => some { s with process := none }
    | _ => none
  | .bulkAnswer answer =>
    match s.process with
    | some ⟨.querying b [] (pkg :: pkgs), lost⟩ =>
      match bulkStep s.store b (pkg :: pkgs) answer with
      | some (store, phase) => some ⟨store, some ⟨phase, lost⟩⟩
      | none => some { s with process := none }
    | _ => none
  | .mark =>
    match s.process with
    | some ⟨.marking b op (pkg :: pkgs), lost⟩ =>
      some ⟨s.store.apply pkg op, some ⟨.marking b op pkgs, lost⟩⟩
    | some ⟨.marking b _ [], lost⟩ => some ⟨s.store, some ⟨.querying b [] [], lost⟩⟩
    | _ => none
  | .begin =>
    match s.process with
    | some ⟨.querying b [] [], lost⟩ =>
      let toRemove := b.downloadMetrics.filter fun pkg => pkg ∈ s.store.rateLimited
      some ⟨s.store, some ⟨.inserting b toRemove, lost⟩⟩
    | _ => none
  | .remove =>
    match s.process with
    | some ⟨.inserting b (pkg :: toRemove), lost⟩ =>
      some ⟨s.store.removeRateLimitedPackage pkg, some ⟨.inserting b toRemove, lost⟩⟩
    | _ => none
  | .commit error =>
    match s.process with
    | some ⟨.inserting b [], lost⟩ => some (commitStep error s.store b lost)
    | _ => none
  | .kill => some { s with process := none }

end NpmFollower.DownloadMetrics
