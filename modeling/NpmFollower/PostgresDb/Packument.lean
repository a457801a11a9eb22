import NpmFollower.PostgresDb.CustomTypes

/-! # Packuments

A packument is cut into the data of the package itself and the data of each of
its versions. The diff log stores both and compares them by their hashes.
-/

namespace NpmFollower.PostgresDb

inductive PackageOnlyPackument where
  | normal (latest : Option Semver) (created modified : DateTime) (otherDistTags : JsonMap)
      (extraVersionTimes : BTreeMap Semver DateTime)
  | unpublished (created modified : DateTime) (unpublishedBlob : Value)
      (extraVersionTimes : BTreeMap Semver DateTime)
  /-- Not marked as deleted, but the change has no data. -/
  | missingData
  | deleted

def PackageOnlyPackument.latest : PackageOnlyPackument → Option Semver
  | .normal latest _ _ _ _ => latest
  | _ => none

def PackageOnlyPackument.isNormal : PackageOnlyPackument → Bool
  | .normal .. => true
  | _ => false

structure Spec where
  raw : Value
  parsed : ParsedSpec

structure Dist where
  tarballUrl : String
  shasum : Option String
  unpackedSize : Option ℤ
  fileCount : Option ℤ
  integrity : Option String
  signature0Sig : Option String
  signature0Keyid : Option String
  npmSignature : Option String

structure RepositoryInfo where
  raw : Value
  info : RepoInfo

structure VersionOnlyPackument where
  prodDependencies : List (String × Spec)
  devDependencies : List (String × Spec)
  peerDependencies : List (String × Spec)
  optionalDependencies : List (String × Spec)
  dist : Dist
  repository : Option RepositoryInfo
  time : DateTime
  extraMetadata : BTreeMap String Value

abbrev AllVersionPackuments := BTreeMap Semver VersionOnlyPackument

/-- `serialize_and_hash`: the SHA-256 of the serialisation and the number of serialised bytes. -/
structure Hasher where
  package : PackageOnlyPackument → String × ℕ
  version : VersionOnlyPackument → String × ℕ

namespace Hasher

def packageHash (H : Hasher) (data : PackageOnlyPackument) : String := (H.package data).1

def versionHash (H : Hasher) (data : VersionOnlyPackument) : String := (H.version data).1

end Hasher

end NpmFollower.PostgresDb
