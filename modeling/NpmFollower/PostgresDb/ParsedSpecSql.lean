import NpmFollower.PostgresDb.VersionSql

/-! # Parsed specs in Postgres

A spec is spread over thirteen nullable columns, of which its type says which are
not null; the CHECK constraints of the domain `parsed_spec` say the same.
-/

namespace NpmFollower.PostgresDb

open Sql

inductive SpecTypeEnum where
  | range
  | tag
  | git
  | remote
  | alias
  | file
  | directory
  | invalid
deriving DecidableEq

inductive AliasSubspecTypeEnum where
  | range
  | tag
deriving DecidableEq

/-- The composite value; the constraints are in the two columns of disjuncts. -/
structure ParsedSpecStruct where
  depType : Option SpecTypeEnum
  rangeDisjuncts : Option (PgArray ConstraintConjunctsStruct)
  tagName : Option String
  gitSpec : Option String
  remoteUrl : Option String
  aliasPackageName : Option String
  aliasPackageIdIfExists : Option ℤ
  aliasSubdepType : Option AliasSubspecTypeEnum
  aliasSubdepRangeDisjuncts : Option (PgArray ConstraintConjunctsStruct)
  aliasSubdepTagName : Option String
  filePath : Option String
  directoryPath : Option String
  invalidMessage : Option String

/-- `ParsedSpecStructRecordRust`, the tuple of the columns. -/
structure ParsedSpecRecord where
  depType : SpecTypeEnum
  range : Option VersionConstraint
  tag : Option String
  git : Option String
  remote : Option String
  aliasName : Option String
  aliasId : Option ℤ
  aliasSubdepType : Option AliasSubspecTypeEnum
  aliasRange : Option VersionConstraint
  aliasTag : Option String
  file : Option String
  directory : Option String
  invalid : Option String

namespace ParsedSpec

def toRecord : ParsedSpec → ParsedSpecRecord
  | .range vc =>
    ⟨.range, some vc, none, none, none, none, none, none, none, none, none, none, none⟩
  | .tag t => ⟨.tag, none, some t, none, none, none, none, none, none, none, none, none, none⟩
  | .git url => ⟨.git, none, none, some url, none, none, none, none, none, none, none, none, none⟩
  | .remote url =>
    ⟨.remote, none, none, none, some url, none, none, none, none, none, none, none, none⟩
  | .alias name id (.range vc) =>
    ⟨.alias, none, none, none, none, some name, id, some .range, some vc, none, none, none, none⟩
  | .alias name id (.tag t) =>
    ⟨.alias, none, none, none, none, some name, id, some .tag, none, some t, none, none, none⟩
  | .file path =>
    ⟨.file, none, none, none, none, none, none, none, none, none, some path, none, none⟩
  | .directory path =>
    ⟨.directory, none, none, none, none, none, none, none, none, none, none, some path, none⟩
  | .invalid message =>
    ⟨.invalid, none, none, none, none, none, none, none, none, none, none, none, some message⟩

def ofRecord : ParsedSpecRecord → Except String ParsedSpec
  | ⟨.range, some vc, none, none, none, none, none, none, none, none, none, none, none⟩ =>
    .ok (.range vc)
  | ⟨.tag, none, some t, none, none, none, none, none, none, none, none, none, none⟩ =>
    .ok (.tag t)
  | ⟨.git, none, none, some url, none, none, none, none, none, none, none, none, none⟩ =>
    .ok (.git url)
  | ⟨.remote, none, none, none, some url, none, none, none, none, none, none, none, none⟩ =>
    .ok (.remote url)
  | ⟨.alias, none, none, none, none, some name, id, some .range, some vc, none, none, none, none⟩ =>
    .ok (.alias name id (.range vc))
  | ⟨.alias, none, none, none, none, some name, id, some .tag, none, some t, none, none, none⟩ =>
    .ok (.alias name id (.tag t))
  | ⟨.file, none, none, none, none, none, none, none, none, none, some path, none, none⟩ =>
    .ok (.file path)
  | ⟨.directory, none, none, none, none, none, none, none, none, none, none, some path, none⟩ =>
    .ok (.directory path)
  | ⟨.invalid, none, none, none, none, none, none, none, none, none, none, none, some message⟩ =>
    .ok (.invalid message)
  | _ => .error "Unrecognized enum variant"

def toSql (spec : ParsedSpec) : ParsedSpecStruct :=
  let r := spec.toRecord
  ⟨some r.depType, r.range.map VersionConstraint.toSql, r.tag, r.git, r.remote, r.aliasName,
    r.aliasId, r.aliasSubdepType, r.aliasRange.map VersionConstraint.toSql, r.aliasTag, r.file,
    r.directory, r.invalid⟩

def readConstraint :
    Option (PgArray ConstraintConjunctsStruct) → Except String (Option VersionConstraint)
  | none => .ok none
  | some a => (VersionConstraint.fromSql a).map some

def fromSql (v : ParsedSpecStruct) : Except String ParsedSpec := do
  let depType ← notNone v.depType
  let range ← readConstraint v.rangeDisjuncts
  let aliasRange ← readConstraint v.aliasSubdepRangeDisjuncts
  ofRecord ⟨depType, range, v.tagName, v.gitSpec, v.remoteUrl, v.aliasPackageName,
    v.aliasPackageIdIfExists, v.aliasSubdepType, aliasRange, v.aliasSubdepTagName, v.filePath,
    v.directoryPath, v.invalidMessage⟩

theorem ofRecord_toRecord (spec : ParsedSpec) : ofRecord spec.toRecord = .ok spec := by
  rcases spec with _ | _ | _ | _ | ⟨_, _, _ | _⟩ | _ | _ | _ <;> rfl

theorem readConstraint_toSql (c : Option VersionConstraint) :
    readConstraint (c.map VersionConstraint.toSql) = .ok c := by
  cases c with
  | none => rfl
  | some c =>
    rw [Option.map_some, readConstraint, VersionConstraint.fromSql_toSql]
    rfl

theorem fromSql_toSql (spec : ParsedSpec) : fromSql spec.toSql = .ok spec := by
  have hrange := readConstraint_toSql spec.toRecord.range
  have halias := readConstraint_toSql spec.toRecord.aliasRange
  simp only [fromSql, toSql, notNone, hrange, halias]
  exact ofRecord_toRecord spec

end ParsedSpec

/-! ## The domain -/

namespace ParsedSpecStruct

variable (v : ParsedSpecStruct)

/-- The column is not null for the type, and null for every other type. -/
def columnCheck {α : Type} (t : SpecTypeEnum) (column : Option α) : Truth :=
  ((equals v.depType (some t)).and (isNotNull column)).or
    ((equals v.depType (some t)).not.and (isNull column))

def aliasCheck : Truth :=
  ((equals v.depType (some .alias)).and
    ((isNotNull v.aliasPackageName).and
      ((isNotNull v.aliasSubdepType).and
        (((equals v.aliasSubdepType (some .range)).and
            ((isNotNull v.aliasSubdepRangeDisjuncts).and (isNull v.aliasSubdepTagName))).or
          ((equals v.aliasSubdepType (some .tag)).and
            ((isNull v.aliasSubdepRangeDisjuncts).and (isNotNull v.aliasSubdepTagName))))))).or
    ((equals v.depType (some .alias)).not.and
      ((isNull v.aliasPackageName).and
        ((isNull v.aliasPackageIdIfExists).and
          ((isNull v.aliasSubdepType).and
            ((isNull v.aliasSubdepRangeDisjuncts).and (isNull v.aliasSubdepTagName))))))

structure InDomain : Prop where
  depType : Passes (isNotNull v.depType)
  range : Passes (v.columnCheck .range v.rangeDisjuncts)
  tag : Passes (v.columnCheck .tag v.tagName)
  git : Passes (v.columnCheck .git v.gitSpec)
  remote : Passes (v.columnCheck .remote v.remoteUrl)
  aliasColumns : Passes v.aliasCheck
  file : Passes (v.columnCheck .file v.filePath)
  directory : Passes (v.columnCheck .directory v.directoryPath)
  invalid : Passes (v.columnCheck .invalid v.invalidMessage)
  rangeDisjuncts : DisjunctsInDomain v.rangeDisjuncts
  aliasDisjuncts : DisjunctsInDomain v.aliasSubdepRangeDisjuncts

/-- The constraints are read. -/
def Plain : Prop :=
  (∀ a ∈ v.rangeDisjuncts, PlainDisjuncts a) ∧ ∀ a ∈ v.aliasSubdepRangeDisjuncts, PlainDisjuncts a

end ParsedSpecStruct

namespace ParsedSpec

/-- The constraints of the spec have no empty list. -/
def NonEmpty (spec : ParsedSpec) : Prop :=
  ∀ c, spec.toRecord.range = some c ∨ spec.toRecord.aliasRange = some c →
    VersionConstraint.NonEmpty c

theorem disjunctsInDomain_map {c : Option VersionConstraint}
    (h : ∀ d, c = some d → VersionConstraint.NonEmpty d) :
    DisjunctsInDomain (c.map VersionConstraint.toSql) := by
  cases c with
  | none => exact ⟨by decide, by simp⟩
  | some c => exact VersionConstraint.inDomain_toSql (h c rfl)

theorem inDomain_toSql {spec : ParsedSpec} (h : spec.NonEmpty) : spec.toSql.InDomain where
  depType := by simp [toSql]
  range := by
    rcases spec with _ | _ | _ | _ | ⟨_, _, _ | _⟩ | _ | _ | _ <;>
      simp [ParsedSpecStruct.columnCheck, toSql, toRecord]
  tag := by
    rcases spec with _ | _ | _ | _ | ⟨_, _, _ | _⟩ | _ | _ | _ <;>
      simp [ParsedSpecStruct.columnCheck, toSql, toRecord]
  git := by
    rcases spec with _ | _ | _ | _ | ⟨_, _, _ | _⟩ | _ | _ | _ <;>
      simp [ParsedSpecStruct.columnCheck, toSql, toRecord]
  remote := by
    rcases spec with _ | _ | _ | _ | ⟨_, _, _ | _⟩ | _ | _ | _ <;>
      simp [ParsedSpecStruct.columnCheck, toSql, toRecord]
  aliasColumns := by
    rcases spec with _ | _ | _ | _ | ⟨_, _, _ | _⟩ | _ | _ | _ <;>
      simp [ParsedSpecStruct.aliasCheck, toSql, toRecord]
  file := by
    rcases spec with _ | _ | _ | _ | ⟨_, _, _ | _⟩ | _ | _ | _ <;>
      simp [ParsedSpecStruct.columnCheck, toSql, toRecord]
  directory := by
    rcases spec with _ | _ | _ | _ | ⟨_, _, _ | _⟩ | _ | _ | _ <;>
      simp [ParsedSpecStruct.columnCheck, toSql, toRecord]
  invalid := by
    rcases spec with _ | _ | _ | _ | ⟨_, _, _ | _⟩ | _ | _ | _ <;>
      simp [ParsedSpecStruct.columnCheck, toSql, toRecord]
  rangeDisjuncts := disjunctsInDomain_map fun c hc => h c (Or.inl hc)
  aliasDisjuncts := disjunctsInDomain_map fun c hc => h c (Or.inr hc)

theorem reads_readConstraint_iff {a : Option (PgArray ConstraintConjunctsStruct)}
    (h : DisjunctsInDomain a) : Reads (readConstraint a) ↔ ∀ b ∈ a, PlainDisjuncts b := by
  cases a with
  | none => simp [readConstraint]
  | some a =>
    have hread := VersionConstraint.reads_iff h
    simp [readConstraint, hread]

/-- The columns of an alias. -/
def AliasColumns (v : ParsedSpecStruct) : Prop :=
  v.aliasPackageName ≠ none ∧
    ((v.aliasSubdepType = some .range ∧ v.aliasSubdepRangeDisjuncts ≠ none ∧
        v.aliasSubdepTagName = none) ∨
      (v.aliasSubdepType = some .tag ∧ v.aliasSubdepRangeDisjuncts = none ∧
        v.aliasSubdepTagName ≠ none))

/-- The columns of another type of spec. -/
def NoAliasColumns (v : ParsedSpecStruct) : Prop :=
  v.aliasPackageName = none ∧ v.aliasPackageIdIfExists = none ∧ v.aliasSubdepType = none ∧
    v.aliasSubdepRangeDisjuncts = none ∧ v.aliasSubdepTagName = none

theorem columnCheck_iff {v : ParsedSpecStruct} {t : SpecTypeEnum} (ht : v.depType = some t)
    (t' : SpecTypeEnum) {α : Type} (column : Option α) :
    Passes (v.columnCheck t' column) ↔ if t = t' then column ≠ none else column = none := by
  split_ifs with heq <;> simp [ParsedSpecStruct.columnCheck, ht, heq]

theorem aliasCheck_iff {v : ParsedSpecStruct} {t : SpecTypeEnum} (ht : v.depType = some t) :
    Passes v.aliasCheck ↔ if t = .alias then AliasColumns v else NoAliasColumns v := by
  simp only [ParsedSpecStruct.aliasCheck, passes_and, passes_or, passes_equals, passes_not_equals,
    passes_isNull, passes_isNotNull, ht, Option.some.injEq, reduceCtorEq, false_or]
  split_ifs with heq
  · rcases htype : v.aliasSubdepType with _ | _ | _ <;> simp [heq, AliasColumns, htype]
  · simp [heq, NoAliasColumns]

/-- The columns of a value in the domain are those of a spec. -/
theorem reads_ofRecord {v : ParsedSpecStruct} (h : v.InDomain) {t : SpecTypeEnum}
    (ht : v.depType = some t) {range aliasRange : Option VersionConstraint}
    (hrange : range = none ↔ v.rangeDisjuncts = none)
    (halias : aliasRange = none ↔ v.aliasSubdepRangeDisjuncts = none) :
    Reads (ofRecord ⟨t, range, v.tagName, v.gitSpec, v.remoteUrl, v.aliasPackageName,
      v.aliasPackageIdIfExists, v.aliasSubdepType, aliasRange, v.aliasSubdepTagName, v.filePath,
      v.directoryPath, v.invalidMessage⟩) := by
  obtain ⟨-, h1, h2, h3, h4, h5, h6, h7, h8, -, -⟩ := h
  rw [columnCheck_iff ht] at h1 h2 h3 h4 h6 h7 h8
  rw [aliasCheck_iff ht] at h5
  rw [ne_eq, ← hrange] at h1
  simp only [AliasColumns, NoAliasColumns, ne_eq, ← halias] at h5
  cases t with
  | «alias» =>
    simp only [reduceCtorEq, if_false, if_true] at h1 h2 h3 h4 h5 h6 h7 h8
    obtain ⟨hname, hsub⟩ := h5
    obtain ⟨name, hname⟩ := Option.ne_none_iff_exists'.mp hname
    rcases hsub with ⟨htype, hvc, htag⟩ | ⟨htype, hvc, htag⟩
    · obtain ⟨vc, hvc⟩ := Option.ne_none_iff_exists'.mp hvc
      simp only [h1, h2, h3, h4, h6, h7, h8, hname, htype, hvc, htag, ofRecord, reads_ok]
    · obtain ⟨tag, htag⟩ := Option.ne_none_iff_exists'.mp htag
      simp only [h1, h2, h3, h4, h6, h7, h8, hname, htype, hvc, htag, ofRecord, reads_ok]
  | range =>
    simp only [reduceCtorEq, if_false, if_true] at h1 h2 h3 h4 h5 h6 h7 h8
    obtain ⟨vc, h1⟩ := Option.ne_none_iff_exists'.mp h1
    simp only [h1, h2, h3, h4, h5, h6, h7, h8, ofRecord, reads_ok]
  | tag =>
    simp only [reduceCtorEq, if_false, if_true] at h1 h2 h3 h4 h5 h6 h7 h8
    obtain ⟨t, h2⟩ := Option.ne_none_iff_exists'.mp h2
    simp only [h1, h2, h3, h4, h5, h6, h7, h8, ofRecord, reads_ok]
  | git =>
    simp only [reduceCtorEq, if_false, if_true] at h1 h2 h3 h4 h5 h6 h7 h8
    obtain ⟨url, h3⟩ := Option.ne_none_iff_exists'.mp h3
    simp only [h1, h2, h3, h4, h5, h6, h7, h8, ofRecord, reads_ok]
  | remote =>
    simp only [reduceCtorEq, if_false, if_true] at h1 h2 h3 h4 h5 h6 h7 h8
    obtain ⟨url, h4⟩ := Option.ne_none_iff_exists'.mp h4
    simp only [h1, h2, h3, h4, h5, h6, h7, h8, ofRecord, reads_ok]
  | file =>
    simp only [reduceCtorEq, if_false, if_true] at h1 h2 h3 h4 h5 h6 h7 h8
    obtain ⟨path, h6⟩ := Option.ne_none_iff_exists'.mp h6
    simp only [h1, h2, h3, h4, h5, h6, h7, h8, ofRecord, reads_ok]
  | directory =>
    simp only [reduceCtorEq, if_false, if_true] at h1 h2 h3 h4 h5 h6 h7 h8
    obtain ⟨path, h7⟩ := Option.ne_none_iff_exists'.mp h7
    simp only [h1, h2, h3, h4, h5, h6, h7, h8, ofRecord, reads_ok]
  | invalid =>
    simp only [reduceCtorEq, if_false, if_true] at h1 h2 h3 h4 h5 h6 h7 h8
    obtain ⟨message, h8⟩ := Option.ne_none_iff_exists'.mp h8
    simp only [h1, h2, h3, h4, h5, h6, h7, h8, ofRecord, reads_ok]

theorem eq_none_of_readConstraint {a : Option (PgArray ConstraintConjunctsStruct)}
    {c : Option VersionConstraint} (h : readConstraint a = .ok c) : c = none ↔ a = none := by
  cases a with
  | none =>
    cases h
    simp
  | some a =>
    rw [readConstraint] at h
    cases hread : VersionConstraint.fromSql a with
    | error e =>
      rw [hread] at h
      cases h
    | ok c' =>
      rw [hread] at h
      cases h
      simp

/-- A value in the domain is read if and only if its constraints are. -/
theorem reads_iff {v : ParsedSpecStruct} (h : v.InDomain) : Reads (fromSql v) ↔ v.Plain := by
  obtain ⟨t, ht⟩ := Option.ne_none_iff_exists'.mp ((passes_isNotNull _).mp h.depType)
  have hrange := reads_readConstraint_iff h.rangeDisjuncts
  have halias := reads_readConstraint_iff h.aliasDisjuncts
  rw [ParsedSpecStruct.Plain, ← hrange, ← halias, fromSql, reads_bind_iff]
  constructor
  · rintro ⟨t', -, hrest⟩
    rw [reads_bind_iff] at hrest
    obtain ⟨range, hr, hrest⟩ := hrest
    rw [reads_bind_iff] at hrest
    obtain ⟨aliasRange, ha, -⟩ := hrest
    exact ⟨⟨range, hr⟩, aliasRange, ha⟩
  · rintro ⟨⟨range, hr⟩, aliasRange, ha⟩
    refine ⟨t, by rw [ht]; rfl, ?_⟩
    rw [reads_bind_iff]
    refine ⟨range, hr, ?_⟩
    rw [reads_bind_iff]
    exact ⟨aliasRange, ha, reads_ofRecord h ht (eq_none_of_readConstraint hr)
      (eq_none_of_readConstraint ha)⟩

/-- A spec survives the database: it is read back, it passes the checks if it has no empty list,
and what passes the checks is read if and only if its constraints are plain. -/
theorem survives_iff (spec : ParsedSpec) (v : ParsedSpecStruct) :
    fromSql spec.toSql = .ok spec ∧ (spec.NonEmpty → spec.toSql.InDomain) ∧
      (v.InDomain → ((∃ spec, fromSql v = .ok spec) ↔ v.Plain)) :=
  ⟨fromSql_toSql spec, inDomain_toSql, reads_iff⟩

/-- A range with one disjunct, which is null. -/
def nullDisjunct : ParsedSpecStruct :=
  ⟨some .range, some ⟨[1], [none], by decide, by decide⟩, none, none, none, none, none, none, none,
    none, none, none, none⟩

theorem not_survives_nullDisjunct :
    ¬ ∀ v : ParsedSpecStruct, v.InDomain → ∃ spec, fromSql v = .ok spec := by
  intro h
  have hdisjuncts : DisjunctsInDomain nullDisjunct.rangeDisjuncts :=
    ⟨by decide, by simp [nullDisjunct]⟩
  have hdomain : nullDisjunct.InDomain :=
    ⟨by decide, by decide, by decide, by decide, by decide, by decide, by decide, by decide,
      by decide, hdisjuncts, ⟨by decide, by simp [nullDisjunct]⟩⟩
  obtain ⟨spec, hspec⟩ := h nullDisjunct hdomain
  cases hspec

end ParsedSpec

end NpmFollower.PostgresDb
