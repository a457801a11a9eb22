import NpmFollower.PostgresDb.CustomTypes

/-! # The table of packages

The rows of `packages`, what changes in them, and the conditions that the table
imposes on each row.
-/

namespace NpmFollower.PostgresDb

structure NewPackage where
  name : String
  currentPackageStateType : PackageStateType
  packageStateHistory : List PackageStateTimePoint
  distTagLatestVersion : Option ℤ
  created : Option DateTime
  modified : Option DateTime
  otherDistTags : Option Value
  otherTimeData : Option Value
  unpublishedData : Option Value

structure Package extends NewPackage where
  id : ℤ

/-- A field that stays as it is is `none`. The name never changes. -/
structure PackageUpdate where
  currentPackageStateType : Option PackageStateType
  packageStateHistory : Option (List PackageStateTimePoint)
  distTagLatestVersion : Option (Option ℤ)
  created : Option (Option DateTime)
  modified : Option (Option DateTime)
  otherDistTags : Option (Option Value)
  otherTimeData : Option (Option Value)
  unpublishedData : Option (Option Value)

/-- `check_current_package_state_matches` and `check_package_data_filled`. -/
def NewPackage.check (p : NewPackage) : Bool :=
  (p.packageStateHistory.getLast?.any fun t => t.state = p.currentPackageStateType) &&
    match p.currentPackageStateType with
    | .normal => p.created.isSome && p.modified.isSome && p.otherDistTags.isSome &&
        p.unpublishedData.isNone
    | .unpublished => p.created.isSome && p.modified.isSome && p.unpublishedData.isSome
    | .deleted => true

namespace Package

def diff (old : Package) (new : NewPackage) : PackageUpdate where
  currentPackageStateType :=
    if old.currentPackageStateType ≠ new.currentPackageStateType then
      some new.currentPackageStateType
    else none
  packageStateHistory :=
    if old.packageStateHistory ≠ new.packageStateHistory then some new.packageStateHistory else none
  distTagLatestVersion :=
    if old.distTagLatestVersion ≠ new.distTagLatestVersion then some new.distTagLatestVersion
    else none
  created := if old.created ≠ new.created then some new.created else none
  modified := if old.modified ≠ new.modified then some new.modified else none
  otherDistTags :=
    if old.otherDistTags != new.otherDistTags then some new.otherDistTags else none
  otherTimeData :=
    if old.otherTimeData != new.otherTimeData then some new.otherTimeData else none
  unpublishedData :=
    if old.unpublishedData != new.unpublishedData then some new.unpublishedData else none

def applyDiff (p : Package) (diff : PackageUpdate) : Package where
  id := p.id
  name := p.name
  currentPackageStateType := diff.currentPackageStateType.getD p.currentPackageStateType
  packageStateHistory := diff.packageStateHistory.getD p.packageStateHistory
  distTagLatestVersion := diff.distTagLatestVersion.getD p.distTagLatestVersion
  created := diff.created.getD p.created
  modified := diff.modified.getD p.modified
  otherDistTags := diff.otherDistTags.getD p.otherDistTags
  otherTimeData := diff.otherTimeData.getD p.otherTimeData
  unpublishedData := diff.unpublishedData.getD p.unpublishedData

@[simp] theorem applyDiff_id (p : Package) (diff : PackageUpdate) : (p.applyDiff diff).id = p.id :=
  rfl

@[simp] theorem applyDiff_name (p : Package) (diff : PackageUpdate) :
    (p.applyDiff diff).name = p.name :=
  rfl

end Package

end NpmFollower.PostgresDb
