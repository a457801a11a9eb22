import NpmFollower.RelationalDbBuilder.LiveCounters
import NpmFollower.RelationalDbBuilder.RowUpdates

/-! # What an update of a package writes

An update appends a state to the history of the package and replaces its other
columns. Where it does not panic, it should write the columns that a creation
with the same data writes.
-/

namespace NpmFollower.RelationalDbBuilder

open Std PostgresDb RelationalDbAccessor EntryProcessor

variable {C : LruCaches} (E : Env)

/-- Two columns with JSON are equal as values of serde_json. -/
theorem isSome_eq_of_beq {a b : Option Value} (h : (a == b) = true) : a.isSome = b.isSome := by
  cases a <;> cases b <;> first | rfl | exact absurd h Bool.false_ne_true

/-- The row has the columns, up to the order of JSON entries where they did not change. -/
structure HasColumns (row : Package) (new : NewPackage) : Prop where
  state : row.currentPackageStateType = new.currentPackageStateType
  history : row.packageStateHistory = new.packageStateHistory
  latest : row.distTagLatestVersion = new.distTagLatestVersion
  created : row.created = new.created
  modified : row.modified = new.modified
  otherDistTags : row.otherDistTags = new.otherDistTags ∨ (row.otherDistTags == new.otherDistTags) = true
  otherTimeData : row.otherTimeData = new.otherTimeData ∨ (row.otherTimeData == new.otherTimeData) = true
  unpublishedData : row.unpublishedData = new.unpublishedData ∨
    (row.unpublishedData == new.unpublishedData) = true

theorem getD_ite_ne {α : Type} [DecidableEq α] (a b : α) :
    (if a ≠ b then some b else none).getD a = b := by
  by_cases h : a = b <;> simp [h]

theorem getD_ite_bne (a b : Option Value) :
    (if a != b then some b else none).getD a = b ∨
      ((if a != b then some b else none).getD a == b) = true := by
  cases h : (a == b) with
  | true => exact .inr (by simp [bne, h])
  | false => exact .inl (by simp [bne, h])

/-- `apply_diff` after `diff` gives the columns of the new package. -/
theorem hasColumns_applyDiff (p : Package) (new : NewPackage) :
    HasColumns (p.applyDiff (p.diff new)) new where
  state := getD_ite_ne _ _
  history := getD_ite_ne _ _
  latest := getD_ite_ne _ _
  created := getD_ite_ne _ _
  modified := getD_ite_ne _ _
  otherDistTags := getD_ite_bne _ _
  otherTimeData := getD_ite_bne _ _
  unpublishedData := getD_ite_bne _ _

theorem HasColumns.check {row : Package} {new : NewPackage} (h : HasColumns row new) :
    row.check = new.check := by
  have hisSome : ∀ {a b : Option Value}, a = b ∨ (a == b) = true → a.isSome = b.isSome := by
    rintro a b (rfl | hbeq)
    · rfl
    · exact isSome_eq_of_beq hbeq
  have hisNone : ∀ {a b : Option Value}, a = b ∨ (a == b) = true → a.isNone = b.isNone := by
    intro a b hab
    rw [← Option.not_isSome, ← Option.not_isSome, hisSome hab]
  rw [NewPackage.check, NewPackage.check, h.state, h.history, h.created, h.modified,
    hisSome h.otherDistTags, hisNone h.unpublishedData, hisSome h.unpublishedData]

/-- The columns besides the state, the history and the latest version. -/
def DataColumns (p : Package) (new : NewPackage) : PackageOnlyPackument → Prop
  | .normal _ created modified otherDistTags extraVersionTimes =>
    new.created = some created ∧ new.modified = some modified ∧
      new.otherDistTags = some (.object otherDistTags) ∧
      new.otherTimeData = some (E.timesAsPairs extraVersionTimes) ∧ new.unpublishedData = none
  | .unpublished created modified unpublishedBlob extraVersionTimes =>
    new.created = some created ∧ new.modified = some modified ∧
      new.otherDistTags = p.otherDistTags ∧
      (extraVersionTimes.isEmpty = true ∧ new.otherTimeData = some (.object [])) ∧
      new.unpublishedData = some unpublishedBlob
  | _ => new.created = p.created ∧ new.modified = p.modified ∧
      new.otherDistTags = p.otherDistTags ∧ new.otherTimeData = p.otherTimeData ∧
      new.unpublishedData = p.unpublishedData

def stateOf : PackageOnlyPackument → PackageStateType
  | .normal .. => .normal
  | .unpublished .. => .unpublished
  | _ => .deleted

/-- The columns that an update writes for a row. -/
structure UpdatesTo (db : Db) (p : Package) (seq diffEntryId : ℤ) (data : PackageOnlyPackument)
    (new : NewPackage) : Prop where
  state : new.currentPackageStateType = stateOf data
  history : ∃ time, new.packageStateHistory =
    p.packageStateHistory ++ [⟨stateOf data, seq, diffEntryId, time⟩]
  latest : ∀ v, new.distTagLatestVersion = some v → ∃ row ∈ db.versions.rows, row.id = v
  columns : DataColumns E p new data

theorem UpdatesTo.check {db : Db} {p : Package} {seq diffEntryId : ℤ} {data : PackageOnlyPackument}
    {new : NewPackage} (h : UpdatesTo E db p seq diffEntryId data new) : new.check = true := by
  obtain ⟨time, hhistory⟩ := h.history
  have hcolumns := h.columns
  rw [NewPackage.check, hhistory, List.getLast?_concat, h.state]
  cases data with
  | normal latest created modified otherDistTags extraVersionTimes =>
    obtain ⟨hcreated, hmodified, htags, -, hunpublished⟩ := hcolumns
    simp [stateOf, hcreated, hmodified, htags, hunpublished]
  | unpublished created modified unpublishedBlob extraVersionTimes =>
    obtain ⟨hcreated, hmodified, -, -, hunpublished⟩ := hcolumns
    simp [stateOf, hcreated, hmodified, hunpublished]
  | missingData => simp [stateOf]
  | deleted => simp [stateOf]

/-- The panics of an update. -/
structure UpdatePanics (db : Db) (p : Package) (data : PackageOnlyPackument) (F : Panic → Prop) :
    Prop where
  latest : ∀ l, data.latest = some l → versionIdOf db (p.id, l) = none →
    F .errorGettingVersionIdBySemver
  times : ∀ created modified blob times, data = .unpublished created modified blob times →
    times.isEmpty = false → F (.assertion "key must be a string")

theorem exists_version_row {db : Db} {key : ℤ × Semver} {id : ℤ} (h : versionIdOf db key = some id) :
    ∃ row ∈ db.versions.rows, row.id = id := by
  obtain ⟨row, hrow, -, hid⟩ := exists_version_of_versionIdOf h
  exact ⟨row, hrow, hid⟩

theorem updatedPackage_fits (hC : C.Lawful) {db : Db} (hdb : Constraints db) {p : Package}
    (hp : p ∈ db.packages.rows) (name : String) (seq diffEntryId : ℤ) {data : PackageOnlyPackument}
    {F : Panic → Prop} (hF : UpdatePanics db p data F) :
    Hoare.Triple (Fits (C := C) db) (updatedPackage E p name seq diffEntryId data)
      (fun new w => Fits db w ∧ UpdatesTo E db p seq diffEntryId data new) F := by
  cases data with
  | normal latest created modified otherDistTags extraVersionTimes =>
    cases latest with
    | none =>
      refine Hoare.Triple.pure fun w hw => ⟨hw, rfl, ⟨_, rfl⟩, nofun, rfl, rfl, rfl, rfl, rfl⟩
    | some l =>
      have hlatest : Hoare.Triple (Fits (C := C) db)
          (do let id ← getVersionIdBySemver p.id l; return some id)
          (fun latestId w => Fits db w ∧ ∀ v, latestId = some v → ∃ row ∈ db.versions.rows, row.id = v)
          F := by
        refine Hoare.Triple.bind (getVersionIdBySemver_fits hC (hF.latest l rfl))
          fun id => Hoare.Triple.of_and fun hid => ?_
        refine Hoare.Triple.pure fun w hw => ⟨hw, fun v hv => ?_⟩
        rw [← Option.some.inj hv]
        exact exists_version_row hid
      refine Hoare.Triple.bind hlatest fun latestId => Hoare.Triple.of_and fun hlatestId => ?_
      exact Hoare.Triple.pure fun w hw =>
        ⟨hw, rfl, ⟨_, rfl⟩, hlatestId, rfl, rfl, rfl, rfl, rfl⟩
  | unpublished created modified unpublishedBlob extraVersionTimes =>
    by_cases htimes : extraVersionTimes.isEmpty
    · have hobject : timesAsObject extraVersionTimes = some (.object []) := if_pos htimes
      rw [updatedPackage, hobject]
      exact Hoare.Triple.pure fun w hw =>
        ⟨hw, rfl, ⟨_, rfl⟩, hdb.latest p hp, rfl, rfl, rfl, ⟨htimes, rfl⟩, rfl⟩
    · have hobject : timesAsObject extraVersionTimes = none := if_neg htimes
      rw [updatedPackage, hobject]
      exact Hoare.Triple.throw fun _ _ => hF.times _ _ _ _ rfl (by simpa using htimes)
  | missingData =>
    refine Hoare.Triple.pure fun w hw => ⟨hw, rfl, ⟨_, rfl⟩, hdb.latest p hp, rfl, rfl, rfl, rfl, rfl⟩
  | deleted =>
    refine Hoare.Triple.pure fun w hw => ⟨hw, rfl, ⟨_, rfl⟩, hdb.latest p hp, rfl, rfl, rfl, rfl, rfl⟩

/-- The row of a package after an update with its data. -/
structure Updated (db : Db) (name : String) (seq diffEntryId : ℤ) (data : PackageOnlyPackument)
    (w : World C) : Prop where
  exists_row : ∃ p new, packageOf db name = some p ∧ UpdatesTo E db p seq diffEntryId data new ∧
    packageOf w.conn name = some (p.applyDiff (p.diff new))
  inv : RowsInv w

/-- An update is one statement, which writes its columns. -/
theorem updatePackage_writes (hC : C.Lawful) {db : Db} (hdb : Constraints db) (name : String)
    (seq diffEntryId : ℤ) {data : PackageOnlyPackument} {F : Panic → Prop}
    (hmissing : packageOf db name = none → F .packageDoesNotExist ∧ F .errorGettingPackageByName)
    (hF : ∀ p, packageOf db name = some p → UpdatePanics db p data F) :
    Hoare.Triple (Fits (C := C) db) (EntryProcessor.updatePackage E name data seq diffEntryId)
      (fun _ w => ∃ p new, packageOf db name = some p ∧
        UpdatesTo E db p seq diffEntryId data new ∧ Accepted db (p.applyDiff (p.diff new)) ∧
        Fits (withPackageUpdate db p.id (p.diff new)) w) F := by
  refine Hoare.Triple.bind (getPackageByName_fits hC E hdb hmissing)
    fun p => Hoare.Triple.of_and fun hp => ?_
  have hmem : p ∈ db.packages.rows := Rows.mem_of_find hp
  refine Hoare.Triple.bind (updatedPackage_fits E hC hdb hmem name seq diffEntryId (hF p hp))
    fun new => Hoare.Triple.of_and fun hnew => ?_
  have hcolumns := hasColumns_applyDiff p new
  have haccepted : Accepted db (p.applyDiff (p.diff new)) := by
    refine ⟨hcolumns.check.trans hnew.check, ?_⟩
    rw [hcolumns.latest]
    exact hnew.latest
  exact Hoare.Triple.post (updatePackage_fits hdb hC E hp fun h => absurd haccepted h)
    fun _ w hw => ⟨p, new, hp, hnew, haccepted, hw.2⟩

/-- An update writes its columns where the package and its latest version exist and the times can
be written. -/
theorem updatePackage_updated (hC : C.Lawful) {db : Db} (hdb : Constraints db) (name : String)
    (seq diffEntryId : ℤ) {data : PackageOnlyPackument} {F : Panic → Prop}
    (hmissing : packageOf db name = none → F .packageDoesNotExist ∧ F .errorGettingPackageByName)
    (hF : ∀ p, packageOf db name = some p → UpdatePanics db p data F) :
    Hoare.Triple (Fits (C := C) db) (EntryProcessor.updatePackage E name data seq diffEntryId)
      (fun _ => Updated E db name seq diffEntryId data) F := by
  refine (updatePackage_writes E hC hdb name seq diffEntryId hmissing hF).post fun _ w hw => ?_
  obtain ⟨p, new, hp, hnew, haccepted, hfits⟩ := hw
  refine ⟨⟨p, new, hp, hnew, ?_⟩, .of_fits (hdb.update (Rows.mem_of_find hp) haccepted) hfits⟩
  rw [hfits.conn]
  exact packageOf_update_self hp

section Preserved

variable (hC : C.Lawful)

theorem preserves_currentDeps (depType : DependencyType) (currentData : Version) :
    Hoare.Preserves (RowsInv (C := C)) (currentDeps depType currentData) :=
  Hoare.Preserves.mapM fun _ => preserves_query_expect

theorem preserves_assertDepsEq (old : List Dependency) (new : List (String × Spec)) :
    Hoare.Preserves (RowsInv (C := C)) (assertDepsEq old new) := by
  refine Hoare.Preserves.bind (preserves_guardOr _ _) fun _ => Hoare.Preserves.forM fun e => ?_
  refine Hoare.Preserves.bind (preserves_guardOr _ _) fun _ => ?_
  refine Hoare.Preserves.bind (preserves_guardOr _ _) fun _ => ?_
  exact preserves_guardOr _ _

theorem preserves_assertRepoEq (currentData : Version) (repo : Option RepositoryInfo) :
    Hoare.Preserves (RowsInv (C := C)) (assertRepoEq currentData repo) := by
  cases repo with
  | some r =>
    refine Hoare.Preserves.bind (preserves_expect _ _) fun _ => ?_
    refine Hoare.Preserves.bind (preserves_expect _ _) fun _ => ?_
    refine Hoare.Preserves.bind (preserves_guardOr _ _) fun _ => ?_
    exact preserves_guardOr _ _
  | none =>
    refine Hoare.Preserves.bind (preserves_guardOr _ _) fun _ => ?_
    exact preserves_guardOr _ _

theorem preserves_discard_insert (deps : List NewDependency) :
    Hoare.Preserves (RowsInv (C := C)) (discard <| insertOrIncDependencies deps) :=
  Hoare.Preserves.bind (preserves_insertOrIncDependencies deps) fun _ => Hoare.Preserves.pure

include hC

theorem preserves_maybeGetPackageIdByName (name : String) :
    Hoare.Preserves (RowsInv (C := C)) (maybeGetPackageIdByName name) :=
  preserves_of_fits fun _ _ => maybeGetPackageIdByName_fits hC name

theorem preserves_getPackageIdByName (name : String) :
    Hoare.Preserves (RowsInv (C := C)) (getPackageIdByName name) :=
  Hoare.Preserves.bind (preserves_maybeGetPackageIdByName hC name) fun _ => preserves_expect _ _

theorem preserves_getVersionIdBySemver (packageId : ℤ) (v : Semver) :
    Hoare.Preserves (RowsInv (C := C)) (getVersionIdBySemver packageId v) :=
  preserves_of_fits fun _ _ => getVersionIdBySemver_fits hC fun _ => trivial

theorem preserves_newDependencies (depType : DependencyType) (deps : List (String × Spec)) :
    Hoare.Preserves (RowsInv (C := C)) (newDependencies E depType deps) :=
  Hoare.Preserves.mapM fun _ =>
    Hoare.Preserves.bind (preserves_maybeGetPackageIdByName hC _) fun _ => Hoare.Preserves.pure

theorem preserves_createPackage (package : String) (data : PackageOnlyPackument)
    (seq diffEntryId : ℤ) :
    Hoare.Preserves (RowsInv (C := C)) (createPackage E package data seq diffEntryId) := by
  refine Hoare.Preserves.bind ?_ fun new => preserves_insertNewPackage hC E new
  cases newPackage E package seq diffEntryId data with
  | error e => exact Hoare.Preserves.throw
  | ok new => exact Hoare.Preserves.pure

theorem preserves_updatePackage (name : String) (data : PackageOnlyPackument) (seq diffEntryId : ℤ) :
    Hoare.Preserves (RowsInv (C := C)) (EntryProcessor.updatePackage E name data seq diffEntryId) := by
  intro w hw
  exact (updatePackage_updated E hC hw.constraints name seq diffEntryId
    (fun _ => ⟨trivial, trivial⟩) fun _ _ => ⟨fun _ _ _ => trivial, fun _ _ _ _ _ _ => trivial⟩).post
      (fun _ _ h => h.inv) w hw.fits

theorem preserves_patchPackageRefs (package : String) :
    Hoare.Preserves (RowsInv (C := C)) (patchPackageRefs E package) := by
  intro w hw
  have hpatch : Hoare.Triple (Fits (C := C) w.conn) (patchPackageRefs E package)
      (fun _ => RowsInv) fun _ => True := by
    refine Hoare.Triple.bind (getPackageIdByName_fits hC trivial)
      fun id => Hoare.Triple.of_and fun hrow => ?_
    refine Hoare.Triple.bind (putPackageId_fits hC hrow) fun _ => ?_
    refine Hoare.Triple.bind (promotePackageData_fits hC package) fun _ => ?_
    exact (preserves_query (updateDepsMissingPack_rows E.digests package id)).pre
      fun _ => .of_fits hw.constraints
  exact hpatch w hw.fits

theorem preserves_createVersion (package : String) (version : Semver) (data : VersionOnlyPackument)
    (seq diffEntryId : ℤ) :
    Hoare.Preserves (RowsInv (C := C)) (createVersion E package version data seq diffEntryId) := by
  refine Hoare.Preserves.bind (preserves_guardOr _ _) fun _ => ?_
  refine Hoare.Preserves.bind (preserves_guardOr _ _) fun _ => ?_
  refine Hoare.Preserves.bind (preserves_guardOr _ _) fun _ => ?_
  refine Hoare.Preserves.bind (preserves_guardOr _ _) fun _ => ?_
  refine Hoare.Preserves.bind (preserves_getPackageIdByName hC package) fun packageId => ?_
  refine Hoare.Preserves.bind (preserves_newDependencies E hC _ _) fun _ => ?_
  refine Hoare.Preserves.bind (preserves_newDependencies E hC _ _) fun _ => ?_
  refine Hoare.Preserves.bind (preserves_newDependencies E hC _ _) fun _ => ?_
  refine Hoare.Preserves.bind (preserves_newDependencies E hC _ _) fun _ => ?_
  refine Hoare.Preserves.bind (preserves_insertOrIncDependencies _) fun ids => ?_
  exact preserves_insertNewVersion hC _

theorem preserves_updateVersion (name : String) (version : Semver) (data : VersionOnlyPackument)
    (seq diffEntryId : ℤ) :
    Hoare.Preserves (RowsInv (C := C)) (updateVersion name version data seq diffEntryId) := by
  refine Hoare.Preserves.bind (preserves_getPackageIdByName hC name) fun packageId => ?_
  refine Hoare.Preserves.bind (preserves_getVersionIdBySemver hC _ _) fun versionId => ?_
  refine Hoare.Preserves.bind preserves_query_expect fun currentData => ?_
  refine Hoare.Preserves.bind (preserves_currentDeps _ _) fun _ => ?_
  refine Hoare.Preserves.bind (preserves_currentDeps _ _) fun _ => ?_
  refine Hoare.Preserves.bind (preserves_currentDeps _ _) fun _ => ?_
  refine Hoare.Preserves.bind (preserves_currentDeps _ _) fun _ => ?_
  refine Hoare.Preserves.bind (preserves_assertDepsEq _ _) fun _ => ?_
  refine Hoare.Preserves.bind (preserves_assertDepsEq _ _) fun _ => ?_
  refine Hoare.Preserves.bind (preserves_assertDepsEq _ _) fun _ => ?_
  refine Hoare.Preserves.bind (preserves_assertDepsEq _ _) fun _ => ?_
  refine Hoare.Preserves.bind (preserves_guardOr _ _) fun _ => ?_
  refine Hoare.Preserves.bind (preserves_assertRepoEq _ _) fun _ => ?_
  have hmetadata : Hoare.Preserves (RowsInv (C := C))
      (if (currentData.extraMetadata != Value.object data.extraMetadata.toList) = true then
        query (Versions.setVersionExtraMetadata versionId (.object data.extraMetadata.toList))
      else pure ()) := by
    split_ifs
    · exact preserves_setVersionExtraMetadata _ _
    · exact Hoare.Preserves.pure
  dsimp only
  by_cases hnormal : currentData.currentVersionStateType ≠ .normal
  · rw [if_pos hnormal]
    refine Hoare.Preserves.bind (preserves_guardOr _ _) fun _ => ?_
    refine Hoare.Preserves.bind (preserves_discard_insert _) fun _ => ?_
    refine Hoare.Preserves.bind (preserves_discard_insert _) fun _ => ?_
    refine Hoare.Preserves.bind (preserves_discard_insert _) fun _ => ?_
    refine Hoare.Preserves.bind (preserves_discard_insert _) fun _ => ?_
    exact Hoare.Preserves.bind (preserves_setState _ _ _ _ _) fun _ => hmetadata
  · rw [if_neg hnormal]
    exact hmetadata

theorem preserves_deleteVersion (name : String) (version : Semver) (seq diffEntryId : ℤ) :
    Hoare.Preserves (RowsInv (C := C)) (deleteVersion name version seq diffEntryId) := by
  refine Hoare.Preserves.bind (preserves_getPackageIdByName hC name) fun packageId => ?_
  refine Hoare.Preserves.bind (preserves_getVersionIdBySemver hC _ _) fun versionId => ?_
  refine Hoare.Preserves.bind preserves_query_expect fun currentData => ?_
  refine Hoare.Preserves.bind (preserves_currentDeps _ _) fun _ => ?_
  refine Hoare.Preserves.bind (preserves_currentDeps _ _) fun _ => ?_
  refine Hoare.Preserves.bind (preserves_currentDeps _ _) fun _ => ?_
  refine Hoare.Preserves.bind (preserves_currentDeps _ _) fun _ => ?_
  refine Hoare.Preserves.bind (preserves_discard_insert _) fun _ => ?_
  refine Hoare.Preserves.bind (preserves_discard_insert _) fun _ => ?_
  refine Hoare.Preserves.bind (preserves_discard_insert _) fun _ => ?_
  refine Hoare.Preserves.bind (preserves_discard_insert _) fun _ => ?_
  exact preserves_setState _ _ _ _ _

theorem preserves_processEntry (e : DiffLogEntry) :
    Hoare.Preserves (RowsInv (C := C)) (processEntry E e) := by
  rw [processEntry]
  cases e.instr with
  | createPackage data => exact preserves_createPackage E hC _ _ _ _
  | updatePackage data => exact preserves_updatePackage E hC _ _ _ _
  | patchPackageReferences => exact preserves_patchPackageRefs E hC _
  | createVersion v data => exact preserves_createVersion E hC _ _ _ _ _
  | updateVersion v data => exact preserves_updateVersion hC _ _ _ _ _
  | deleteVersion v => exact preserves_deleteVersion hC _ _ _ _

end Preserved

/-- The worlds in which the builder runs: it starts on a database in its constraints, processes
entries, flushes its caches, and may be started again. -/
inductive Reached : World C → Prop where
  | start {db : Db} (h : Constraints db) : Reached (uncached C db)
  | entry {w w' : World C} {e : DiffLogEntry} (h : Reached w)
    (hrun : processEntry E e w = .ok ((), w')) : Reached w'
  | flush {w w' : World C} (h : Reached w) (hrun : flushCaches w = .ok ((), w')) : Reached w'
  | restart {w : World C} (h : Reached w) : Reached (uncached C w.conn)

theorem Reached.rowsInv (hC : C.Lawful) {w : World C} (h : Reached E w) : RowsInv w := by
  induction h with
  | start h => exact rowsInv_uncached hC h
  | entry _ hrun ih => exact (preserves_processEntry E hC _).of_ok ih hrun
  | flush _ hrun ih => exact preserves_flushCaches.of_ok ih hrun
  | restart _ ih => exact rowsInv_uncached hC ih.constraints

/-- The same data for a creation, which takes no latest version. -/
def withoutLatest : PackageOnlyPackument → PackageOnlyPackument
  | .normal _ created modified otherDistTags extraVersionTimes =>
    .normal none created modified otherDistTags extraVersionTimes
  | data => data

def isUnpublished : PackageOnlyPackument → Bool
  | .unpublished .. => true
  | _ => false

/-- For data with times, the row has what a creation with the data writes. -/
def AsCreated (name : String) (seq diffEntryId : ℤ) (data : PackageOnlyPackument) (row : Package) :
    Prop :=
  stateOf data = .deleted ∨
    ∃ new, newPackage E name seq diffEntryId (withoutLatest data) = .ok new ∧
      row.created = new.created ∧ row.modified = new.modified ∧
      (row.otherTimeData == new.otherTimeData) = true ∧
      (row.unpublishedData == new.unpublishedData) = true

/-- An update succeeds and writes what a creation with the same data writes. -/
def WritesAsCreated (w : World C) (name : String) (seq diffEntryId : ℤ)
    (data : PackageOnlyPackument) : Prop :=
  ∃ w' row, EntryProcessor.updatePackage E name data seq diffEntryId w = .ok ((), w') ∧
    packageOf w'.conn name = some row ∧ AsCreated E name seq diffEntryId data row

theorem beqList_self {xs : List Value} (h : ∀ x ∈ xs, x.beq x = true) : Value.beqList xs xs = true := by
  induction xs with
  | nil => rfl
  | cons x xs ih =>
    rw [Value.beqList, h x List.mem_cons_self, ih fun y hy => h y (List.mem_cons_of_mem _ hy)]
    rfl

theorem prereleaseTagToValue_beq_self (t : PrereleaseTag) :
    (prereleaseTagToValue t).beq (prereleaseTagToValue t) = true := by
  cases t <;> simp [prereleaseTagToValue, Value.beq, Value.beqEntries]

theorem semverToValue_beq_self (v : Semver) : (semverToValue v).beq (semverToValue v) = true := by
  have hprerelease : Value.beqList (v.prerelease.map prereleaseTagToValue)
      (v.prerelease.map prereleaseTagToValue) = true := by
    refine beqList_self fun x hx => ?_
    obtain ⟨t, -, rfl⟩ := List.mem_map.mp hx
    exact prereleaseTagToValue_beq_self t
  have hbuild : Value.beqList (v.build.map Value.string) (v.build.map Value.string) = true := by
    refine beqList_self fun x hx => ?_
    obtain ⟨t, -, rfl⟩ := List.mem_map.mp hx
    simp [Value.beq]
  simp [semverToValue, intToValue, Value.beq, Value.beqEntries, List.lookup, hprerelease, hbuild]

/-- The encoding of the times is equal to itself. -/
theorem timesAsPairs_beq_self (times : BTreeMap Semver DateTime) :
    (E.timesAsPairs times == E.timesAsPairs times) = true := by
  have hpairs : Value.beqList
      (times.toList.map fun e => .array [semverToValue e.1, .string (E.dateTimeText e.2)])
      (times.toList.map fun e => .array [semverToValue e.1, .string (E.dateTimeText e.2)]) = true := by
    refine beqList_self fun x hx => ?_
    obtain ⟨e, -, rfl⟩ := List.mem_map.mp hx
    simp [Value.beq, Value.beqList, semverToValue_beq_self]
  change Value.beq _ _ = true
  simp [Env.timesAsPairs, Value.beq, Value.beqEntries, hpairs]

/-- The encoding is not the empty object. -/
theorem empty_bne_timesAsPairs {a : Option Value} (times : BTreeMap Semver DateTime)
    (h : a = some (.object []) ∨ (a == some (.object [])) = true) :
    (a == some (E.timesAsPairs times)) = false := by
  have hempty : a = some (.object []) := by
    rcases h with h | h
    · exact h
    · rcases a with _ | (_ | _ | _ | _ | _ | m)
      · exact absurd h Bool.false_ne_true
      all_goals try exact absurd h Bool.false_ne_true
      change (m.length == 0 && Value.beqEntries m []) = true at h
      rw [Bool.and_eq_true, beq_iff_eq, List.length_eq_zero_iff] at h
      rw [h.1]
  rw [hempty]
  rfl

theorem AsCreated.of_updatesTo {db : Db} {p : Package} {new : NewPackage} {name : String}
    {seq diffEntryId : ℤ} {data : PackageOnlyPackument}
    (h : UpdatesTo E db p seq diffEntryId data new) (hdata : isUnpublished data = false) :
    AsCreated E name seq diffEntryId data (p.applyDiff (p.diff new)) := by
  have hrow := hasColumns_applyDiff p new
  cases data with
  | normal latest created modified otherDistTags extraVersionTimes =>
    obtain ⟨hcreated, hmodified, -, htimes, hunpublished⟩ := h.columns
    have hrowTimes := hrow.otherTimeData
    have hrowUnpublished := hrow.unpublishedData
    rw [htimes] at hrowTimes
    rw [hunpublished] at hrowUnpublished
    refine .inr ⟨_, rfl, hrow.created.trans hcreated, hrow.modified.trans hmodified, ?_, ?_⟩
    · rcases hrowTimes with heq | hbeq
      · rw [heq]
        exact timesAsPairs_beq_self E extraVersionTimes
      · exact hbeq
    · rcases hrowUnpublished with heq | hbeq
      · rw [heq]
        rfl
      · exact hbeq
  | unpublished created modified unpublishedBlob extraVersionTimes => cases hdata
  | missingData => exact .inl rfl
  | deleted => exact .inl rfl

theorem not_asCreated_of_updatesTo {db : Db} {p : Package} {new : NewPackage} {name : String}
    {seq diffEntryId : ℤ} {data : PackageOnlyPackument}
    (h : UpdatesTo E db p seq diffEntryId data new) (hdata : isUnpublished data = true) :
    ¬AsCreated E name seq diffEntryId data (p.applyDiff (p.diff new)) := by
  have hrow := hasColumns_applyDiff p new
  cases data with
  | unpublished created modified unpublishedBlob extraVersionTimes =>
    obtain ⟨-, -, -, ⟨-, htimes⟩, -⟩ := h.columns
    rintro (hdeleted | ⟨_, hnew, -, -, hbeq, -⟩)
    · cases hdeleted
    · have hrowTimes := hrow.otherTimeData
      rw [htimes] at hrowTimes
      cases hnew
      rw [empty_bne_timesAsPairs E extraVersionTimes hrowTimes] at hbeq
      cases hbeq
  | _ => cases hdata

/-- An update of an existing package writes what a creation writes exactly for data that is not
that of an unpublished package. -/
theorem writesAsCreated_iff (hC : C.Lawful) {w : World C} (hw : Reached E w) {name : String}
    {data : PackageOnlyPackument} (hpackage : HasPackage w.conn name)
    (hlatest : ∀ l, data.latest = some l → HasVersion w.conn name l) (seq diffEntryId : ℤ) :
    WritesAsCreated E w name seq diffEntryId data ↔ isUnpublished data = false := by
  have hinv := hw.rowsInv E hC
  constructor
  · rintro ⟨w', row, hrun, hrow, hcreated⟩
    have hupdated := (updatePackage_updated E hC hinv.constraints name seq diffEntryId
      (F := fun _ => True) (fun _ => ⟨trivial, trivial⟩)
      fun _ _ => ⟨fun _ _ _ => trivial, fun _ _ _ _ _ _ => trivial⟩).of_ok hinv.fits hrun
    obtain ⟨p, new, -, hnew, hrow'⟩ := hupdated.exists_row
    rw [hrow] at hrow'
    cases Option.some.inj hrow'
    by_contra hdata
    exact not_asCreated_of_updatesTo E hnew (by simpa using hdata) hcreated
  · intro hdata
    have hmissing : packageOf w.conn name = none → False := by
      intro hnone
      rw [HasPackage, packageIdOf_eq, hnone] at hpackage
      cases hpackage
    have hpanics : ∀ p, packageOf w.conn name = some p →
        UpdatePanics w.conn p data fun _ => False := by
      intro p hp
      refine ⟨fun l hl hnone => ?_, fun created modified blob times heq _ => ?_⟩
      · obtain ⟨id, hid, hversion⟩ := hlatest l hl
        rw [packageIdOf_eq, hp] at hid
        rw [← Option.some.inj hid, hnone] at hversion
        cases hversion
      · rw [heq] at hdata
        cases hdata
    have hrun := updatePackage_updated E hC hinv.constraints name seq diffEntryId
      (fun hnone => ⟨hmissing hnone, hmissing hnone⟩) hpanics w hinv.fits
    cases hx : EntryProcessor.updatePackage E name data seq diffEntryId w with
    | error e =>
      rw [hx] at hrun
      exact hrun.elim
    | ok r =>
      rw [hx] at hrun
      obtain ⟨p, new, -, hnew, hrow⟩ := hrun.exists_row
      exact ⟨r.2, _, hx, hrow, .of_updatesTo E hnew hdata⟩

section Samples

/-- The times of one version that is not in the packument. -/
def sampleTimes : BTreeMap Semver DateTime := (∅ : BTreeMap Semver DateTime).insert ⟨1, 0, 0, [], []⟩ 5

def sampleCreation : DiffLogEntry := ⟨1, 1, "p", .createPackage .deleted⟩

theorem writesAsCreated_normal : ∃ w,
    processEntry sampleEnv sampleCreation (uncached (.ofCapacity 1) .empty) = .ok ((), w) ∧
      WritesAsCreated sampleEnv w "p" 2 2 (.normal none 1 2 [] sampleTimes) := by
  have hcreated : (processEntry sampleEnv sampleCreation
      (uncached (.ofCapacity 1) .empty)).toOption.map (fun r => (packageIdOf r.2.conn "p").isSome) =
        some true := by
    decide +kernel
  obtain ⟨⟨_, w⟩, hrun, hpackage⟩ := Hoare.exists_ok_of_toOption hcreated
  have hreached : Reached sampleEnv w := .entry (.start constraints_empty) hrun
  exact ⟨w, hrun, (writesAsCreated_iff sampleEnv (LruCaches.ofCapacity_lawful 1) hreached hpackage
    (fun l hl => by cases hl) 2 2).mpr rfl⟩

/-- The update to an unpublished package with the time of a version panics. -/
theorem not_writesAsCreated_unpublished : ∃ w,
    processEntry sampleEnv sampleCreation (uncached (.ofCapacity 1) .empty) = .ok ((), w) ∧
      HasPackage w.conn "p" ∧
      ¬WritesAsCreated sampleEnv w "p" 2 2 (.unpublished 1 2 (.object []) sampleTimes) := by
  have hcreated : (processEntry sampleEnv sampleCreation
      (uncached (.ofCapacity 1) .empty)).toOption.map (fun r => ((packageIdOf r.2.conn "p").isSome,
        (EntryProcessor.updatePackage sampleEnv "p" (.unpublished 1 2 (.object []) sampleTimes) 2 2
          r.2).toOption.isNone)) = some (true, true) := by
    decide +kernel
  obtain ⟨⟨_, w⟩, hrun, hupdate⟩ := Hoare.exists_ok_of_toOption hcreated
  obtain ⟨hpackage, hpanic⟩ := Prod.mk.inj hupdate
  refine ⟨w, hrun, hpackage, ?_⟩
  rintro ⟨w', row, hok, -, -⟩
  rw [hok] at hpanic
  cases hpanic

end Samples

end NpmFollower.RelationalDbBuilder
