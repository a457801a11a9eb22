import NpmFollower.PostgresDb.Packument

/-! # The diff log

The diff log is the list of instructions that rebuild the registry, one entry
for each difference a change makes.
-/

namespace NpmFollower.PostgresDb

inductive DiffLogInstruction where
  | createPackage (data : PackageOnlyPackument)
  | updatePackage (data : PackageOnlyPackument)
  | patchPackageReferences
  | createVersion (v : Semver) (data : VersionOnlyPackument)
  | updateVersion (v : Semver) (data : VersionOnlyPackument)
  | deleteVersion (v : Semver)

namespace DiffLogInstruction

/-- The version that an instruction is about. -/
def version : DiffLogInstruction → Option Semver
  | .createVersion v _ => some v
  | .updateVersion v _ => some v
  | .deleteVersion v => some v
  | _ => none

/-- The data that an instruction gives to its version. -/
def versionData : DiffLogInstruction → Option VersionOnlyPackument
  | .createVersion _ data => some data
  | .updateVersion _ data => some data
  | _ => none

/-- The data that an instruction gives to its package. -/
def packageData : DiffLogInstruction → Option PackageOnlyPackument
  | .createPackage data => some data
  | .updatePackage data => some data
  | _ => none

end DiffLogInstruction

structure NewDiffLogEntry where
  seq : ℤ
  packageName : String
  instr : DiffLogInstruction

/-- An entry with the hash it sets for the package or for the version. -/
structure NewDiffLogEntryWithHash where
  entry : NewDiffLogEntry
  hash : Option String

/-- A row of the diff log as it is read back. -/
structure DiffLogEntry where
  id : ℤ
  seq : ℤ
  packageName : String
  instr : DiffLogInstruction

end NpmFollower.PostgresDb
