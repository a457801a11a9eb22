import NpmFollower.PostgresDb.Json

/-! # The custom column types

Versions with their derived order, parsed dependency specs, repository
information and the entries of the state histories.
-/

namespace NpmFollower.PostgresDb

open Std

/-- `DateTime<Utc>`, as the distance from the epoch. -/
abbrev DateTime := ℤ

/-- `BTreeMap`, `HashMap` and `DashMap` are all one finite map; the code depends on the order of
iteration for the first only. -/
abbrev BTreeMap (κ ν : Type) [Ord κ] := ExtTreeMap κ ν compare

inductive PrereleaseTag where
  | string (s : String)
  | int (i : ℤ)
deriving DecidableEq

namespace PrereleaseTag

/-- The derived order: every string is below every integer. -/
instance : Ord PrereleaseTag where
  compare
    | .string a, .string b => compare a b
    | .string _, .int _ => .lt
    | .int _, .string _ => .gt
    | .int a, .int b => compare a b

theorem compare_string (a b : String) : compare (string a) (string b) = compare a b := rfl

theorem compare_int (a b : ℤ) : compare (int a) (int b) = compare a b := rfl

instance : OrientedOrd PrereleaseTag where
  eq_swap {a b} := by
    cases a <;> cases b
    · exact @OrientedCmp.eq_swap _ (compare : String → String → Ordering) _ _ _
    · rfl
    · rfl
    · exact @OrientedCmp.eq_swap _ (compare : ℤ → ℤ → Ordering) _ _ _

instance : TransOrd PrereleaseTag where
  isLE_trans {a b c} hab hbc := by
    cases a with
    | string a =>
      cases b with
      | string b =>
        cases c with
        | string c => exact @TransCmp.isLE_trans _ (compare : String → String → Ordering) _ _ _ _ hab hbc
        | int c => rfl
      | int b => cases c <;> first | rfl | cases hbc
    | int a =>
      cases b with
      | string b => cases hab
      | int b =>
        cases c with
        | string c => cases hbc
        | int c => exact @TransCmp.isLE_trans _ (compare : ℤ → ℤ → Ordering) _ _ _ _ hab hbc

instance : LawfulEqOrd PrereleaseTag where
  eq_of_compare {a b} h := by
    cases a <;> cases b
    · exact congrArg string (Std.compare_eq_iff_eq.mp ((compare_string _ _).symm.trans h))
    · cases h
    · cases h
    · exact congrArg int (Std.compare_eq_iff_eq.mp ((compare_int _ _).symm.trans h))

/-- `Display` of a tag. -/
def toString : PrereleaseTag → String
  | .string s => s
  | .int i => Int.repr i

end PrereleaseTag

structure Semver where
  major : ℤ
  minor : ℤ
  bug : ℤ
  prerelease : List PrereleaseTag
  build : List String
deriving DecidableEq

namespace Semver

/-- The derived order: field by field. -/
instance : Ord Semver where
  compare := compareLex (compareOn major) (compareLex (compareOn minor) (compareLex (compareOn bug)
    (compareLex (compareOn prerelease) (compareOn build))))

instance : TransOrd Semver :=
  inferInstanceAs (TransCmp (compareLex (compareOn major) (compareLex (compareOn minor)
    (compareLex (compareOn bug) (compareLex (compareOn prerelease) (compareOn build))))))

instance : LawfulEqOrd Semver where
  eq_of_compare {a b} h := by
    change compareLex _ _ a b = .eq at h
    simp only [compareLex_eq_eq, compareOn, LawfulEqCmp.compare_eq_iff_eq] at h
    obtain ⟨h1, h2, h3, h4, h5⟩ := h
    cases a
    cases b
    simp_all

/-- `Display`: dotted numbers, then `-` and the prerelease tags, then `+` and the build tags. -/
def toString (s : Semver) : String :=
  Int.repr s.major ++ "." ++ Int.repr s.minor ++ "." ++ Int.repr s.bug ++
    (if s.prerelease.isEmpty then "" else
      "-" ++ String.intercalate "." (s.prerelease.map PrereleaseTag.toString)) ++
    (if s.build.isEmpty then "" else "+" ++ String.intercalate "." s.build)

end Semver

inductive VersionComparator where
  | any
  | eq (v : Semver)
  | gt (v : Semver)
  | gte (v : Semver)
  | lt (v : Semver)
  | lte (v : Semver)
deriving DecidableEq

/-- A disjunction of conjunctions of comparators. -/
abbrev VersionConstraint := List (List VersionComparator)

inductive AliasSubspec where
  | range (c : VersionConstraint)
  | tag (t : String)
deriving DecidableEq

inductive ParsedSpec where
  | range (c : VersionConstraint)
  | tag (t : String)
  | git (url : String)
  | remote (url : String)
  | alias (package : String) (packageId : Option ℤ) (spec : AliasSubspec)
  | file (path : String)
  | directory (path : String)
  | invalid (message : String)
deriving DecidableEq

inductive Vcs where
  | git
deriving DecidableEq

inductive RepoHostInfo where
  | github (user repo : String)
  | bitbucket (user repo : String)
  | gitlab (user repo : String)
  | gist (id : String)
  | thirdparty
deriving DecidableEq

structure RepoInfo where
  cloneableRepoUrl : String
  cloneableRepoDir : String
  vcs : Vcs
  hostInfo : RepoHostInfo
deriving DecidableEq

inductive PackageStateType where
  | normal
  | unpublished
  | deleted
deriving DecidableEq

structure PackageStateTimePoint where
  state : PackageStateType
  seq : ℤ
  diffEntryId : ℤ
  estimatedTime : Option DateTime
deriving DecidableEq

inductive VersionStateType where
  | normal
  | unpublished
  | deleted
deriving DecidableEq

structure VersionStateTimePoint where
  state : VersionStateType
  seq : ℤ
  diffEntryId : ℤ
  estimatedTime : Option DateTime
deriving DecidableEq

end NpmFollower.PostgresDb
