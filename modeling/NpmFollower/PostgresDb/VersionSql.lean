import NpmFollower.Library.Sql
import NpmFollower.PostgresDb.CustomTypes

/-! # Versions and constraints in Postgres

A version, a comparator and a constraint are composite values of nullable fields,
with the CHECK constraints of their domains. What is written is read back and
passes the checks; what passes the checks is read unless it is of one of the
shapes that they overlook.
-/

namespace NpmFollower.PostgresDb

open Sql

/-- The error of a null in a column that is not nullable. -/
def unexpectedNull : String := "Unexpected null for non-null column"

def notNone {α : Type} : Option α → Except String α
  | some a => .ok a
  | none => .error unexpectedNull

@[simp] theorem reads_notNone {α : Type} (a : Option α) : Reads (notNone a) ↔ a ≠ none := by
  cases a <;> simp [notNone]

/-! ## Prerelease tags -/

inductive PrereleaseTagTypeEnum where
  | string
  | int
deriving DecidableEq

structure PrereleaseTagStruct where
  tagType : Option PrereleaseTagTypeEnum
  stringCase : Option String
  intCase : Option ℤ

namespace PrereleaseTagStruct

/-- `VALUE IS NULL`, which also holds of a row of nulls. -/
def isNull : Option PrereleaseTagStruct → Bool
  | none => true
  | some v => v.tagType.isNone && v.stringCase.isNone && v.intCase.isNone

/-- The constraint of the domain `prerelease_tag`. -/
def check (value : Option PrereleaseTagStruct) : Truth :=
  let tagType := value.bind tagType
  let stringCase := value.bind stringCase
  let intCase := value.bind intCase
  (Truth.not (some (isNull value))).and
    (((equals tagType (some .string)).and
        ((isNotNull stringCase).and (Sql.isNull intCase))).or
      ((equals tagType (some .int)).and
        ((Sql.isNull stringCase).and (isNotNull intCase))))

end PrereleaseTagStruct

namespace PrereleaseTag

def toSql : PrereleaseTag → PrereleaseTagStruct
  | .string s => ⟨some .string, some s, none⟩
  | .int i => ⟨some .int, none, some i⟩

def fromSql (v : PrereleaseTagStruct) : Except String PrereleaseTag := do
  match ← notNone v.tagType with
  | .string => return .string (← notNone v.stringCase)
  | .int => return .int (← notNone v.intCase)

def fromNullableSql (v : Option PrereleaseTagStruct) : Except String PrereleaseTag := do
  fromSql (← notNone v)

end PrereleaseTag

@[simp] theorem PrereleaseTag.fromSql_toSql (t : PrereleaseTag) : fromSql t.toSql = .ok t := by
  cases t <;> rfl

theorem PrereleaseTag.check_toSql (t : PrereleaseTag) :
    Passes (PrereleaseTagStruct.check (some t.toSql)) := by
  cases t with
  | string s => simp [PrereleaseTagStruct.check, PrereleaseTagStruct.isNull, toSql]
  | int i => simp [PrereleaseTagStruct.check, PrereleaseTagStruct.isNull, toSql]

/-- The check passes a tag without a type. -/
theorem PrereleaseTag.reads_iff {v : Option PrereleaseTagStruct}
    (h : Passes (PrereleaseTagStruct.check v)) :
    Reads (fromNullableSql v) ↔ ∃ t, v = some t ∧ t.tagType ≠ none := by
  cases v with
  | none => simp [PrereleaseTagStruct.check, PrereleaseTagStruct.isNull] at h
  | some t =>
    obtain ⟨tagType, stringCase, intCase⟩ := t
    simp only [PrereleaseTagStruct.check, passes_and, passes_or, passes_equals, passes_isNull,
      passes_isNotNull, Option.bind_some] at h
    obtain ⟨-, hcases⟩ := h
    cases tagType with
    | none =>
      constructor
      · rintro ⟨tag, htag⟩
        cases htag
      · rintro ⟨t, ht, htype⟩
        cases ht
        exact absurd rfl htype
    | some tagType =>
      have hread : Reads (fromNullableSql (some ⟨some tagType, stringCase, intCase⟩)) := by
        cases tagType with
        | string =>
          obtain ⟨hstring, -⟩ : stringCase ≠ none ∧ intCase = none := by simpa using hcases
          obtain ⟨s, rfl⟩ := Option.ne_none_iff_exists'.mp hstring
          exact ⟨.string s, rfl⟩
        | int =>
          obtain ⟨-, hint⟩ : stringCase = none ∧ intCase ≠ none := by simpa using hcases
          obtain ⟨i, rfl⟩ := Option.ne_none_iff_exists'.mp hint
          exact ⟨.int i, rfl⟩
      simp [hread]

/-! ## Versions -/

/-- A nullable array, read with `unwrap_or_default`. -/
def readDefault {α β : Type} (decode : Option α → Except String β) :
    Option (PgArray α) → Except String (List β)
  | none => .ok []
  | some a => a.read decode

/-- How a list that may be empty is written: null if it is. -/
def writeNonEmpty {α β : Type} (encode : β → α) (l : List β) : Option (PgArray α) :=
  if l = [] then none else some (PgArray.ofList (l.map encode))

theorem readDefault_writeNonEmpty {α β : Type} {decode : Option α → Except String β}
    {encode : β → α} {l : List β} (h : ∀ x ∈ l, decode (some (encode x)) = .ok x) :
    readDefault decode (writeNonEmpty encode l) = .ok l := by
  rw [writeNonEmpty]
  split_ifs with hl
  · rw [hl]
    rfl
  · exact PgArray.read_ofList h

/-- An array that a client can read: of one dimension, with elements that it can read. -/
def PlainArray {α : Type} (P : Option α → Prop) (a : PgArray α) : Prop :=
  a.dimensions.length ≤ 1 ∧ ∀ e ∈ a.elements, P e

theorem reads_readDefault_iff {α β : Type} {decode : Option α → Except String β}
    {P : Option α → Prop} {a : Option (PgArray α)}
    (h : ∀ b ∈ a, ∀ e ∈ b.elements, (Reads (decode e) ↔ P e)) :
    Reads (readDefault decode a) ↔ ∀ b ∈ a, PlainArray P b := by
  cases a with
  | none => simp [readDefault]
  | some a =>
    rw [readDefault, PgArray.reads_read_iff]
    simp only [Option.mem_def, Option.some.injEq, forall_eq', PlainArray]
    apply and_congr_right'
    exact forall₂_congr (h a rfl)

structure SemverStruct where
  major : Option ℤ
  minor : Option ℤ
  bug : Option ℤ
  prerelease : Option (PgArray PrereleaseTagStruct)
  build : Option (PgArray String)

namespace SemverStruct

def isNull : Option SemverStruct → Bool
  | none => true
  | some v =>
    v.major.isNone && v.minor.isNone && v.bug.isNone && v.prerelease.isNone && v.build.isNone

/-- The constraint of the domain `semver`. -/
def check (value : Option SemverStruct) : Truth :=
  Truth.or (some (isNull value))
    ((isNotNull (value.bind major)).and
      ((isNotNull (value.bind minor)).and (isNotNull (value.bind bug))))

/-- With the constraint of the domain of the prerelease tags. -/
structure InDomain (value : Option SemverStruct) : Prop where
  check : Passes (check value)
  prerelease : ∀ v ∈ value, ∀ a ∈ v.prerelease, ∀ t ∈ a.elements,
    Passes (PrereleaseTagStruct.check t)

/-- A version that is read if it is not null. -/
def Plain (v : SemverStruct) : Prop :=
  (∀ a ∈ v.prerelease, PlainArray (fun e => ∃ t, e = some t ∧ t.tagType ≠ none) a) ∧
    ∀ a ∈ v.build, PlainArray (fun e => e ≠ none) a

end SemverStruct

namespace Semver

def toSql (v : Semver) : SemverStruct where
  major := some v.major
  minor := some v.minor
  bug := some v.bug
  prerelease := writeNonEmpty PrereleaseTag.toSql v.prerelease
  build := writeNonEmpty id v.build

def fromSql (v : SemverStruct) : Except String Semver := do
  let major ← notNone v.major
  let minor ← notNone v.minor
  let bug ← notNone v.bug
  let prerelease ← readDefault PrereleaseTag.fromNullableSql v.prerelease
  let build ← readDefault notNone v.build
  return { major, minor, bug, prerelease, build }

theorem fromSql_toSql (v : Semver) : fromSql v.toSql = .ok v := by
  have hprerelease : readDefault PrereleaseTag.fromNullableSql
      (writeNonEmpty PrereleaseTag.toSql v.prerelease) = .ok v.prerelease :=
    readDefault_writeNonEmpty fun t _ => t.fromSql_toSql
  have hbuild : readDefault notNone (writeNonEmpty id v.build) = .ok v.build :=
    readDefault_writeNonEmpty fun _ _ => rfl
  simp only [fromSql, toSql, hprerelease, hbuild]
  rfl

theorem isNull_toSql (v : Semver) : SemverStruct.isNull (some v.toSql) = false := rfl

theorem inDomain_toSql (v : Semver) : SemverStruct.InDomain (some v.toSql) where
  check := by simp [SemverStruct.check, toSql]
  prerelease := by
    intro s hs a ha t ht
    cases hs
    simp only [toSql, writeNonEmpty, Option.mem_def] at ha
    split_ifs at ha
    cases ha
    obtain ⟨tag, htag, rfl⟩ := PgArray.mem_elements_ofList.mp ht
    obtain ⟨tag, -, rfl⟩ := List.mem_map.mp htag
    exact tag.check_toSql

theorem reads_iff {s : SemverStruct} (h : SemverStruct.InDomain (some s))
    (hnull : SemverStruct.isNull (some s) = false) : Reads (fromSql s) ↔ s.Plain := by
  obtain ⟨hcheck, htags⟩ := h
  simp only [SemverStruct.check, passes_or, passes_some, hnull, Bool.false_eq_true, false_or,
    passes_and, passes_isNotNull, Option.bind_some] at hcheck
  obtain ⟨hmajor, hminor, hbug⟩ := hcheck
  have hprerelease : Reads (readDefault PrereleaseTag.fromNullableSql s.prerelease) ↔
      ∀ a ∈ s.prerelease, PlainArray (fun e => ∃ t, e = some t ∧ t.tagType ≠ none) a :=
    reads_readDefault_iff fun a ha e he => PrereleaseTag.reads_iff (htags s rfl a ha e he)
  have hbuild : Reads (readDefault notNone s.build) ↔
      ∀ a ∈ s.build, PlainArray (fun e => e ≠ none) a :=
    reads_readDefault_iff fun a _ e _ => reads_notNone e
  rw [SemverStruct.Plain, ← hprerelease, ← hbuild]
  obtain ⟨major, minor, bug, prerelease, build⟩ := s
  obtain ⟨major, rfl⟩ := Option.ne_none_iff_exists'.mp hmajor
  obtain ⟨minor, rfl⟩ := Option.ne_none_iff_exists'.mp hminor
  obtain ⟨bug, rfl⟩ := Option.ne_none_iff_exists'.mp hbug
  have hfrom : fromSql ⟨some major, some minor, some bug, prerelease, build⟩ =
      readDefault PrereleaseTag.fromNullableSql prerelease >>= fun prerelease =>
        readDefault notNone build >>= fun build =>
          pure { major, minor, bug, prerelease, build } := rfl
  rw [hfrom, reads_bind_iff]
  constructor
  · rintro ⟨tags, htags, hrest⟩
    rw [reads_bind_of_forall fun _ => reads_pure _] at hrest
    exact ⟨⟨tags, htags⟩, hrest⟩
  · rintro ⟨⟨tags, htags⟩, hrest⟩
    refine ⟨tags, htags, ?_⟩
    rwa [reads_bind_of_forall fun _ => reads_pure _]

/-- A row of nulls is in the domain and is not read. -/
theorem not_reads_of_isNull {s : SemverStruct} (h : SemverStruct.isNull (some s) = true) :
    ¬ Reads (fromSql s) := by
  obtain ⟨major, minor, bug, prerelease, build⟩ := s
  cases major with
  | some major => simp [SemverStruct.isNull] at h
  | none =>
    rintro ⟨v, hv⟩
    cases hv

end Semver

/-! ## Comparators -/

inductive VersionOperatorEnum where
  | any
  | eq
  | gt
  | gte
  | lt
  | lte
deriving DecidableEq

structure VersionComparatorStruct where
  operator : Option VersionOperatorEnum
  semver : Option SemverStruct

namespace VersionComparatorStruct

def isNull : Option VersionComparatorStruct → Bool
  | none => true
  | some v => v.operator.isNone && v.semver.isNone

/-- The constraint of the domain `version_comparator`. -/
def check (value : Option VersionComparatorStruct) : Truth :=
  let operator := value.bind operator
  let semverIsNull := SemverStruct.isNull (value.bind semver)
  (Truth.not (some (isNull value))).and
    ((isNotNull operator).and
      (((equals operator (some .any)).and (some semverIsNull)).or
        ((equals operator (some .any)).not.and (Truth.not (some semverIsNull)))))

structure InDomain (value : Option VersionComparatorStruct) : Prop where
  check : Passes (check value)
  semver : ∀ v ∈ value, SemverStruct.InDomain v.semver

/-- A comparator that is read: the check passes a row of nulls beside the operator `*`. -/
def Plain (v : VersionComparatorStruct) : Prop :=
  (v.operator = some .any → v.semver = none) ∧ ∀ s ∈ v.semver, s.Plain

end VersionComparatorStruct

namespace VersionComparator

def toSql : VersionComparator → VersionComparatorStruct
  | .any => ⟨some .any, none⟩
  | .eq v => ⟨some .eq, some v.toSql⟩
  | .gt v => ⟨some .gt, some v.toSql⟩
  | .gte v => ⟨some .gte, some v.toSql⟩
  | .lt v => ⟨some .lt, some v.toSql⟩
  | .lte v => ⟨some .lte, some v.toSql⟩

def readSemver : Option SemverStruct → Except String (Option Semver)
  | none => .ok none
  | some v => (Semver.fromSql v).map some

def ofOperator (op : VersionOperatorEnum) (v : Option Semver) : Except String VersionComparator :=
  match op with
  | .any =>
    match v with
    | some _ => .error "VersionComparator::Any should not have a value"
    | none => .ok .any
  | .eq => (notNone v).map .eq
  | .gt => (notNone v).map .gt
  | .gte => (notNone v).map .gte
  | .lt => (notNone v).map .lt
  | .lte => (notNone v).map .lte

def fromSql (v : VersionComparatorStruct) : Except String VersionComparator := do
  let op ← notNone v.operator
  let semver ← readSemver v.semver
  ofOperator op semver

def fromNullableSql (v : Option VersionComparatorStruct) : Except String VersionComparator := do
  fromSql (← notNone v)

theorem fromSql_toSql (c : VersionComparator) : fromSql c.toSql = .ok c := by
  cases c with
  | any => rfl
  | _ v =>
    have hv : readSemver (some v.toSql) = .ok (some v) := by
      rw [readSemver, Semver.fromSql_toSql]
      rfl
    simp only [fromSql, toSql, notNone, hv]
    rfl

theorem inDomain_toSql (c : VersionComparator) :
    VersionComparatorStruct.InDomain (some c.toSql) where
  check := by
    cases c with
    | any => decide
    | _ v =>
      have hnull := v.isNull_toSql
      simp [VersionComparatorStruct.check, VersionComparatorStruct.isNull, toSql, hnull]
  semver := by
    intro s hs
    cases hs
    cases c with
    | any =>
      constructor
      · decide
      · simp [toSql]
    | _ v => exact v.inDomain_toSql

theorem reads_ofOperator {op : VersionOperatorEnum} {v : Option Semver} :
    Reads (ofOperator op v) ↔ (op = .any ↔ v = none) := by
  cases op <;> cases v <;> simp [ofOperator, notNone, Except.map]

theorem reads_iff {v : Option VersionComparatorStruct} (h : VersionComparatorStruct.InDomain v) :
    Reads (fromNullableSql v) ↔ ∃ c, v = some c ∧ c.Plain := by
  obtain ⟨hcheck, hsemver⟩ := h
  cases v with
  | none => simp [VersionComparatorStruct.check, VersionComparatorStruct.isNull] at hcheck
  | some c =>
    obtain ⟨operator, semver⟩ := c
    simp only [VersionComparatorStruct.check, passes_and, passes_or, passes_equals, passes_some,
      passes_not_equals, passes_not_some, passes_isNotNull, Option.bind_some] at hcheck
    obtain ⟨-, hoperator, hcases⟩ := hcheck
    obtain ⟨op, rfl⟩ := Option.ne_none_iff_exists'.mp hoperator
    have hfrom : fromNullableSql (some ⟨some op, semver⟩) =
        readSemver semver >>= ofOperator op := rfl
    simp only [Option.some.injEq, exists_eq_left', VersionComparatorStruct.Plain]
    rw [hfrom, reads_bind_iff]
    by_cases hop : op = .any
    · subst hop
      have hnull : SemverStruct.isNull semver = true := by simpa using hcases
      cases semver with
      | none => simp [readSemver, reads_ofOperator]
      | some s =>
        have hnot := Semver.not_reads_of_isNull hnull
        constructor
        · rintro ⟨v, hv, -⟩
          exact absurd (reads_map_iff.mp ⟨v, hv⟩) hnot
        · rintro ⟨hnone, -⟩
          cases hnone rfl
    · have hnull : SemverStruct.isNull semver = false := by simpa [hop] using hcases
      cases semver with
      | none => cases hnull
      | some s =>
        have hreads := Semver.reads_iff (hsemver _ rfl) hnull
        simp only [Option.mem_def, Option.some.injEq, forall_eq', hop, false_imp_iff, true_and,
          ← hreads]
        constructor
        · rintro ⟨v, hv, -⟩
          exact reads_map_iff.mp ⟨v, hv⟩
        · rintro ⟨w, hw⟩
          refine ⟨some w, by rw [readSemver, hw]; rfl, ?_⟩
          simp [reads_ofOperator, hop]

end VersionComparator

/-! ## Constraints -/

structure ConstraintConjunctsStruct where
  conjuncts : Option (PgArray VersionComparatorStruct)

/-- The domain `constraint_conjuncts`. -/
structure ConjunctsInDomain (value : Option (PgArray VersionComparatorStruct)) : Prop where
  check : Passes (isNotNull (value.bind PgArray.length))
  comparators : ∀ a ∈ value, ∀ e ∈ a.elements, VersionComparatorStruct.InDomain e

/-- The domain `constraint_disjuncts`. -/
structure DisjunctsInDomain (value : Option (PgArray ConstraintConjunctsStruct)) : Prop where
  check : Passes ((isNull value).or (isNotNull (value.bind PgArray.length)))
  conjuncts : ∀ a ∈ value, ∀ e ∈ a.elements, ∀ c ∈ e, ConjunctsInDomain c.conjuncts

def PlainConjuncts (c : ConstraintConjunctsStruct) : Prop :=
  ∀ a ∈ c.conjuncts, PlainArray (fun e => ∃ v, e = some v ∧ VersionComparatorStruct.Plain v) a

/-- Disjuncts that are read: the check passes a null for a disjunct. -/
def PlainDisjuncts (a : PgArray ConstraintConjunctsStruct) : Prop :=
  PlainArray (fun e => ∃ c, e = some c ∧ PlainConjuncts c) a

namespace VersionConstraint

def conjunctsToSql (conjuncts : List VersionComparator) : ConstraintConjunctsStruct :=
  ⟨some (PgArray.ofList (conjuncts.map VersionComparator.toSql))⟩

def toSql (c : VersionConstraint) : PgArray ConstraintConjunctsStruct :=
  PgArray.ofList (c.map conjunctsToSql)

def conjunctsFromSql (v : Option ConstraintConjunctsStruct) :
    Except String (List VersionComparator) := do
  let v ← notNone v
  let conjuncts ← notNone v.conjuncts
  conjuncts.read VersionComparator.fromNullableSql

def fromSql (a : PgArray ConstraintConjunctsStruct) : Except String VersionConstraint :=
  a.read conjunctsFromSql

theorem conjunctsFromSql_toSql (conjuncts : List VersionComparator) :
    conjunctsFromSql (some (conjunctsToSql conjuncts)) = .ok conjuncts := by
  have hread : (PgArray.ofList (conjuncts.map VersionComparator.toSql)).read
      VersionComparator.fromNullableSql = .ok conjuncts :=
    PgArray.read_ofList fun c _ => c.fromSql_toSql
  exact hread

theorem fromSql_toSql (c : VersionConstraint) : fromSql (toSql c) = .ok c :=
  PgArray.read_ofList fun conjuncts _ => conjunctsFromSql_toSql conjuncts

/-- The disjunction and all its conjunct lists are non-empty. -/
def NonEmpty (c : VersionConstraint) : Prop := c ≠ [] ∧ [] ∉ c

theorem inDomain_toSql {c : VersionConstraint} (h : NonEmpty c) :
    DisjunctsInDomain (some (toSql c)) where
  check := by
    have hne : (PgArray.ofList (c.map conjunctsToSql)).length ≠ none :=
      PgArray.length_ofList_ne_none (by simpa using h.1)
    simpa [toSql] using hne
  conjuncts := by
    intro a ha e he d hd
    cases ha
    obtain ⟨d', hd', rfl⟩ := PgArray.mem_elements_ofList.mp he
    obtain ⟨conjuncts, hmem, rfl⟩ := List.mem_map.mp hd'
    cases hd
    have hne : conjuncts ≠ [] := fun hnil => h.2 (hnil ▸ hmem)
    constructor
    · have hlength := PgArray.length_ofList_ne_none
        (l := conjuncts.map VersionComparator.toSql) (by simpa using hne)
      simpa [conjunctsToSql] using hlength
    · intro a ha e he
      cases ha
      obtain ⟨v, hv, rfl⟩ := PgArray.mem_elements_ofList.mp he
      obtain ⟨comparator, -, rfl⟩ := List.mem_map.mp hv
      exact comparator.inDomain_toSql

theorem reads_conjuncts_iff {v : Option ConstraintConjunctsStruct}
    (h : ∀ c ∈ v, ConjunctsInDomain c.conjuncts) :
    Reads (conjunctsFromSql v) ↔ ∃ c, v = some c ∧ PlainConjuncts c := by
  cases v with
  | none => simp [conjunctsFromSql, notNone, reads_bind_iff]
  | some c =>
    obtain ⟨hcheck, hcomparators⟩ := h c rfl
    obtain ⟨conjuncts⟩ := c
    cases conjuncts with
    | none => simp at hcheck
    | some a =>
      have hfrom : conjunctsFromSql (some ⟨some a⟩) = a.read VersionComparator.fromNullableSql :=
        rfl
      rw [hfrom, PgArray.reads_read_iff]
      simp only [Option.some.injEq, exists_eq_left', PlainConjuncts, Option.mem_def, forall_eq',
        PlainArray]
      apply and_congr_right'
      exact forall₂_congr fun e he => VersionComparator.reads_iff (hcomparators a rfl e he)

theorem reads_iff {a : PgArray ConstraintConjunctsStruct} (h : DisjunctsInDomain (some a)) :
    Reads (fromSql a) ↔ PlainDisjuncts a := by
  rw [fromSql, PgArray.reads_read_iff]
  apply and_congr_right'
  exact forall₂_congr fun e he => reads_conjuncts_iff (h.conjuncts a rfl e he)

end VersionConstraint

end NpmFollower.PostgresDb
