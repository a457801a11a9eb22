import NpmFollower.PostgresDb.Packument

/-! # The table of versions

The rows of `versions`. The dependencies of a version are four arrays of ids of
the table `dependencies`, which no foreign key checks.
-/

namespace NpmFollower.PostgresDb

inductive DependencyType where
  | prod
  | dev
  | peer
  | optional
deriving DecidableEq

structure NewVersion where
  packageId : ℤ
  semver : Semver
  currentVersionStateType : VersionStateType
  versionStateHistory : List VersionStateTimePoint
  tarballUrl : String
  repositoryRaw : Option Value
  repositoryParsed : Option RepoInfo
  created : DateTime
  extraMetadata : Value
  prodDependencies : List ℤ
  devDependencies : List ℤ
  peerDependencies : List ℤ
  optionalDependencies : List ℤ

structure Version extends NewVersion where
  id : ℤ

/-- `check_current_version_state_matches`. -/
def NewVersion.check (v : NewVersion) : Bool :=
  v.versionStateHistory.getLast?.any fun t => t.state = v.currentVersionStateType

/-- The array for one type of dependency. -/
def NewVersion.dependencies (v : NewVersion) : DependencyType → List ℤ
  | .prod => v.prodDependencies
  | .dev => v.devDependencies
  | .peer => v.peerDependencies
  | .optional => v.optionalDependencies

end NpmFollower.PostgresDb
