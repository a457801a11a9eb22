import NpmFollower.RelationalDbBuilder.PackageWrites
import NpmFollower.RelationalDbBuilder.UnchangedDependencies

/-! # The histories of states

An entry appends at most one point to the history of a row, with its own seq and
id. So a history is a selection of the entries in their order, and its last point
is the current state, which is what the checks of both tables ask for.
-/

namespace NpmFollower.RelationalDbBuilder

open Std PostgresDb RelationalDbAccessor EntryProcessor

variable {C : LruCaches}

/-- The seqs and ids of entries, and those in the histories. -/
def entryStamps (entries : List DiffLogEntry) : List (ℤ × ℤ) := entries.map fun e => (e.seq, e.id)

def packageStamps (p : NewPackage) : List (ℤ × ℤ) :=
  p.packageStateHistory.map fun t => (t.seq, t.diffEntryId)

def versionStamps (v : NewVersion) : List (ℤ × ℤ) :=
  v.versionStateHistory.map fun t => (t.seq, t.diffEntryId)

/-- The rows pass the checks of their tables, and their histories are selections of the entries. -/
structure RowsKept (done : List DiffLogEntry) (db : Db) : Prop where
  packageChecks : ∀ p ∈ db.packages.rows, p.check = true
  versionChecks : ∀ v ∈ db.versions.rows, v.check = true
  packages : ∀ p ∈ db.packages.rows, (packageStamps p.toNewPackage).Sublist (entryStamps done)
  versions : ∀ v ∈ db.versions.rows, (versionStamps v.toNewVersion).Sublist (entryStamps done)

/-- No row is lost, and the histories are continued. -/
structure HistoriesGrow (db db' : Db) : Prop where
  packages : ∀ p ∈ db.packages.rows, ∃ p' ∈ db'.packages.rows,
    p'.id = p.id ∧ p.packageStateHistory <+: p'.packageStateHistory
  versions : ∀ v ∈ db.versions.rows, ∃ v' ∈ db'.versions.rows,
    v'.id = v.id ∧ v.versionStateHistory <+: v'.versionStateHistory

/-- The rows of packages and versions are those of `db₀`. -/
structure SameRows (db₀ db : Db) : Prop where
  packages : db.packages = db₀.packages
  versions : db.versions = db₀.versions

/-- What an entry makes of the rows of `db₀`. -/
structure KeptAfter (done : List DiffLogEntry) (e : DiffLogEntry) (db₀ db : Db) : Prop where
  kept : RowsKept (done ++ [e]) db
  grows : HistoriesGrow db₀ db

theorem HistoriesGrow.trans {db db' db'' : Db} (h : HistoriesGrow db db')
    (h' : HistoriesGrow db' db'') : HistoriesGrow db db'' := by
  constructor
  · intro p hp
    obtain ⟨p', hp', hid, hprefix⟩ := h.packages p hp
    obtain ⟨p'', hp'', hid', hprefix'⟩ := h'.packages p' hp'
    exact ⟨p'', hp'', hid'.trans hid, hprefix.trans hprefix'⟩
  · intro v hv
    obtain ⟨v', hv', hid, hprefix⟩ := h.versions v hv
    obtain ⟨v'', hv'', hid', hprefix'⟩ := h'.versions v' hv'
    exact ⟨v'', hv'', hid'.trans hid, hprefix.trans hprefix'⟩

theorem SameRows.grows {db₀ db : Db} (h : SameRows db₀ db) : HistoriesGrow db₀ db := by
  constructor
  · intro p hp
    exact ⟨p, h.packages ▸ hp, rfl, List.prefix_rfl⟩
  · intro v hv
    exact ⟨v, h.versions ▸ hv, rfl, List.prefix_rfl⟩

theorem entryStamps_concat (done : List DiffLogEntry) (e : DiffLogEntry) :
    entryStamps (done ++ [e]) = entryStamps done ++ [(e.seq, e.id)] := by
  simp [entryStamps]

theorem stamps_sublist_concat {done : List DiffLogEntry} {stamps : List (ℤ × ℤ)}
    (h : stamps.Sublist (entryStamps done)) (e : DiffLogEntry) :
    stamps.Sublist (entryStamps (done ++ [e])) := by
  rw [entryStamps_concat]
  exact h.trans (List.sublist_append_left _ _)

theorem stamps_concat_sublist {done : List DiffLogEntry} {stamps : List (ℤ × ℤ)}
    (h : stamps.Sublist (entryStamps done)) (e : DiffLogEntry) :
    (stamps ++ [(e.seq, e.id)]).Sublist (entryStamps (done ++ [e])) := by
  rw [entryStamps_concat]
  exact h.append (List.Sublist.refl _)

section Statements

variable {done : List DiffLogEntry} {e : DiffLogEntry} {db₀ db : Db}

theorem rowsKept_empty : RowsKept [] .empty := by
  constructor <;> intro r hr <;> exact absurd hr List.not_mem_nil

theorem RowsKept.of_sameRows (h : RowsKept done db₀) (hsame : SameRows db₀ db) :
    RowsKept done db := by
  obtain ⟨hpackages, hversions⟩ := hsame
  constructor
  · rw [hpackages]
    exact h.packageChecks
  · rw [hversions]
    exact h.versionChecks
  · rw [hpackages]
    exact h.packages
  · rw [hversions]
    exact h.versions

theorem RowsKept.concat (h : RowsKept done db) (e : DiffLogEntry) : RowsKept (done ++ [e]) db where
  packageChecks := h.packageChecks
  versionChecks := h.versionChecks
  packages p hp := stamps_sublist_concat (h.packages p hp) e
  versions v hv := stamps_sublist_concat (h.versions v hv) e

theorem RowsKept.after (h : RowsKept done db₀) (e : DiffLogEntry) (hsame : SameRows db₀ db) :
    KeptAfter done e db₀ db :=
  ⟨(h.of_sameRows hsame).concat e, hsame.grows⟩

theorem preserves_sameRows {α : Type} {q : Query α}
    (hq : ∀ db a db', q db = .ok (a, db') →
      db'.packages = db.packages ∧ db'.versions = db.versions) :
    Hoare.Preserves (SameRows db₀) q := by
  intro db hdb
  cases hrun : q db with
  | error p => trivial
  | ok r =>
    obtain ⟨hpackages, hversions⟩ := hq _ _ _ hrun
    exact ⟨hpackages.trans hdb.packages, hversions.trans hdb.versions⟩

theorem sameRows_countsRows : CountsRows (SameRows db₀) fun _ => True where
  counts depId counts := preserves_sameRows (setDependencyCounts_rows depId counts)
  rows _ _ _ _ _ := trivial
  insert dep _ := preserves_sameRows (insertDependencyIncCounts_rows dep)

/-- The panic of an insert into the packages, unless the name is there or there are no ids left. -/
def SavesPackage (db : Db) (name : String) (p : Panic) : Prop :=
  p = .database "Error inserting new package" → 2 ^ 63 ≤ db.packages.nextId ∨ HasPackage db name

/-- A new package begins its history with the entry. -/
theorem insertNewPackage_kept (hdb : RowsKept done db₀) {new : NewPackage} (hcheck : new.check = true)
    (hlatest : new.distTagLatestVersion = none) (hstamps : packageStamps new = [(e.seq, e.id)]) :
    Hoare.Triple (SameRows db₀) (Packages.insertNewPackage new) (fun _ => KeptAfter done e db₀)
      (SavesPackage db₀ new.name) := by
  intro db hsame
  simp only [Packages.insertNewPackage, Hoare.bind_apply, Hoare.get_apply, expect_apply,
    Table.nextval, guardOr_apply]
  by_cases hnext : db.packages.nextId < 2 ^ 63
  · simp only [if_pos hnext, Option.elim_some]
    split_ifs with hguard
    · have hkept := (hdb.of_sameRows hsame).concat e
      refine ⟨⟨fun p hp => ?_, hkept.versionChecks, fun p hp => ?_, hkept.versions⟩,
        hsame.grows.trans ⟨fun p hp => ⟨p, List.mem_append_left _ hp, rfl, List.prefix_rfl⟩,
          fun v hv => ⟨v, hv, rfl, List.prefix_rfl⟩⟩⟩
      · rcases List.mem_append.mp hp with hp | hp
        · exact hkept.packageChecks p hp
        · rw [List.mem_singleton.mp hp]
          exact hcheck
      · rcases List.mem_append.mp hp with hp | hp
        · exact hkept.packages p hp
        · rw [List.mem_singleton.mp hp]
          change (packageStamps new).Sublist _
          rw [hstamps, entryStamps_concat]
          exact List.sublist_append_right _ _
    · intro _
      -- the check holds and there is no latest version, so the name must be there already
      rw [hcheck, hlatest, Option.all_none, Bool.true_and, Bool.and_true, Bool.not_eq_true',
        Bool.not_eq_false, List.any_eq_true] at hguard
      obtain ⟨row, hrow, hname⟩ := hguard
      refine .inr ?_
      rw [HasPackage, packageIdOf, Option.isSome_map]
      by_contra hnone
      rw [Option.not_isSome_iff_eq_none, Rows.find_eq_none_iff, ← hsame.packages] at hnone
      exact hnone row hrow (of_decide_eq_true hname)
  · simp only [if_neg hnext]
    intro _
    rw [hsame.packages] at hnext
    exact .inl (by omega)

/-- The row of an updated package has one point more. -/
theorem RowsKept.updatePackage (hdb : RowsKept done db) (hconstraints : Constraints db) {p : Package}
    (hp : p ∈ db.packages.rows) {diff : PackageUpdate}
    (hcheck : (p.applyDiff diff).check = true) {state : PackageStateType} {time : Option DateTime}
    (hhistory : (p.applyDiff diff).packageStateHistory =
      p.packageStateHistory ++ [⟨state, e.seq, e.id, time⟩]) :
    KeptAfter done e db (withPackageUpdate db p.id diff) := by
  have hkept := hdb.concat e
  have hrow {q : Package} (hq : q ∈ db.packages.rows) (hid : q.id = p.id) : q = p :=
    hconstraints.eq_of_id hq hp hid
  refine ⟨⟨fun q hq => ?_, hkept.versionChecks, fun q hq => ?_, hkept.versions⟩,
    ⟨fun q hq => ?_, fun v hv => ⟨v, hv, rfl, List.prefix_rfl⟩⟩⟩
  · obtain ⟨r, hr, rfl⟩ := Rows.mem_updateWhere.mp hq
    split_ifs with hid
    · rw [hrow hr hid]
      exact hcheck
    · exact hkept.packageChecks r hr
  · obtain ⟨r, hr, rfl⟩ := Rows.mem_updateWhere.mp hq
    split_ifs with hid
    · rw [hrow hr hid, packageStamps, hhistory, List.map_append]
      exact stamps_concat_sublist (hdb.packages p hp) e
    · exact hkept.packages r hr
  · refine ⟨if q.id = p.id then q.applyDiff diff else q, Rows.mem_updateWhere.mpr ⟨q, hq, rfl⟩, ?_⟩
    split_ifs with hid
    · rw [hrow hq hid]
      exact ⟨rfl, ⟨_, hhistory.symm⟩⟩
    · exact ⟨rfl, List.prefix_rfl⟩

/-- The panic of an insert into the versions, unless the row is there or there are no ids left. -/
def SavesVersion (db : Db) (name : String) (v : Semver) (p : Panic) : Prop :=
  p = .database "Error saving new version" → 2 ^ 63 ≤ db.versions.nextId ∨ HasVersion db name v

theorem insertNewVersion_kept (hdb : RowsKept done db₀) {new : NewVersion} {name : String}
    (hid : packageIdOf db₀ name = some new.packageId) (hcheck : new.check = true)
    (hstamps : versionStamps new = [(e.seq, e.id)]) :
    Hoare.Triple (SameRows db₀) (Versions.insertNewVersion new) (fun _ => KeptAfter done e db₀)
      (SavesVersion db₀ name new.semver) := by
  intro db hsame
  simp only [Versions.insertNewVersion, Hoare.bind_apply, Hoare.get_apply, expect_apply,
    Table.nextval, guardOr_apply]
  by_cases hnext : db.versions.nextId < 2 ^ 63
  · simp only [if_pos hnext, Option.elim_some]
    split_ifs with hguard
    · have hkept := (hdb.of_sameRows hsame).concat e
      refine ⟨⟨hkept.packageChecks, fun v hv => ?_, hkept.packages, fun v hv => ?_⟩,
        hsame.grows.trans ⟨fun p hp => ⟨p, hp, rfl, List.prefix_rfl⟩,
          fun v hv => ⟨v, List.mem_append_left _ hv, rfl, List.prefix_rfl⟩⟩⟩
      · rcases List.mem_append.mp hv with hv | hv
        · exact hkept.versionChecks v hv
        · rw [List.mem_singleton.mp hv]
          exact hcheck
      · rcases List.mem_append.mp hv with hv | hv
        · exact hkept.versions v hv
        · rw [List.mem_singleton.mp hv]
          change (versionStamps new).Sublist _
          rw [hstamps, entryStamps_concat]
          exact List.sublist_append_right _ _
    · intro _
      -- the check and the foreign key hold, so the row must be there already
      obtain ⟨p, hp, -, hpid⟩ := exists_package_of_packageIdOf hid
      have hforeign : Packages.foreignKey db (some new.packageId) = true := by
        rw [Packages.foreignKey, Option.all_some, hsame.packages, List.any_eq_true]
        exact ⟨p, hp, decide_eq_true hpid⟩
      rw [hcheck, hforeign, Bool.true_and, Bool.true_and, Bool.not_eq_true', Bool.not_eq_false,
        List.any_eq_true] at hguard
      obtain ⟨row, hrow, hkey⟩ := hguard
      simp only [Bool.and_eq_true, decide_eq_true_eq] at hkey
      refine .inr ⟨new.packageId, hid, ?_⟩
      rw [versionIdOf, Option.isSome_map]
      by_contra hnone
      rw [Option.not_isSome_iff_eq_none, Rows.find_eq_none_iff, ← hsame.versions] at hnone
      exact hnone row hrow (Prod.ext hkey.1 hkey.2)
  · simp only [if_neg hnext]
    intro _
    rw [hsame.versions] at hnext
    exact .inl (by omega)

/-- A new state is one point more in the history of its version. -/
theorem setState_kept (hdb : RowsKept done db₀) (hids : (db₀.versions.rows.map Version.id).Nodup)
    (state : VersionStateType) (versionId : ℤ) :
    Hoare.Triple (SameRows db₀) (Versions.setState state versionId e.seq e.id none)
      (fun _ => KeptAfter done e db₀) fun _ => True := by
  intro db hsame
  simp only [Versions.setState, Versions.getVersionById, Hoare.bind_apply, Hoare.get_apply,
    expect_apply, Versions.updateWhereId, Hoare.modify_apply]
  cases hfind : Rows.find Version.id db.versions.rows versionId with
  | none => trivial
  | some row =>
    rw [← hsame.versions] at hids
    have hmem := Rows.mem_of_find hfind
    have hrow {v : Version} (hv : v ∈ db.versions.rows) (hid : v.id = versionId) : v = row :=
      List.inj_on_of_nodup_map hids hv hmem (hid.trans (Rows.key_of_find hfind).symm)
    have hbefore := hdb.of_sameRows hsame
    have hkept := hbefore.concat e
    refine ⟨⟨hkept.packageChecks, fun v hv => ?_, hkept.packages, fun v hv => ?_⟩,
      hsame.grows.trans ⟨fun p hp => ⟨p, hp, rfl, List.prefix_rfl⟩, fun v hv => ?_⟩⟩
    · obtain ⟨r, hr, rfl⟩ := Rows.mem_updateWhere.mp hv
      split_ifs with hid
      · simp [NewVersion.check]
      · exact hkept.versionChecks r hr
    · obtain ⟨r, hr, rfl⟩ := Rows.mem_updateWhere.mp hv
      split_ifs with hid
      · rw [versionStamps, List.map_append]
        exact stamps_concat_sublist (hbefore.versions row hmem) e
      · exact hkept.versions r hr
    · refine ⟨_, Rows.mem_updateWhere.mpr ⟨v, hv, rfl⟩, ?_⟩
      split_ifs with hid
      · rw [hrow hv hid]
        exact ⟨rfl, List.prefix_append _ _⟩
      · exact ⟨rfl, List.prefix_rfl⟩

theorem setVersionExtraMetadata_kept (versionId : ℤ) (data : Value) :
    Hoare.Preserves (KeptAfter done e db₀) (Versions.setVersionExtraMetadata versionId data) := by
  intro db hdb
  simp only [Versions.setVersionExtraMetadata, Hoare.bind_apply, Hoare.get_apply, guardOr_apply,
    Versions.updateWhereId, Hoare.modify_apply]
  split_ifs
  · refine ⟨⟨hdb.kept.packageChecks, fun v hv => ?_, hdb.kept.packages, fun v hv => ?_⟩,
      hdb.grows.trans ⟨fun p hp => ⟨p, hp, rfl, List.prefix_rfl⟩, fun v hv => ?_⟩⟩
    · obtain ⟨r, hr, rfl⟩ := Rows.mem_updateWhere.mp hv
      have hcheck := hdb.kept.versionChecks r hr
      split_ifs
      exacts [hcheck, hcheck]
    · obtain ⟨r, hr, rfl⟩ := Rows.mem_updateWhere.mp hv
      have hstamps := hdb.kept.versions r hr
      split_ifs
      exacts [hstamps, hstamps]
    · refine ⟨_, Rows.mem_updateWhere.mpr ⟨v, hv, rfl⟩, ?_⟩
      split_ifs
      exacts [⟨rfl, List.prefix_rfl⟩, ⟨rfl, List.prefix_rfl⟩]
  · trivial

end Statements

section Entries

variable (hC : C.Lawful) (E : Env) {done : List DiffLogEntry} {db : Db}

/-- A new package passes its check, and has no latest version yet. -/
theorem newPackage_kept {package : String} {seq diffEntryId : ℤ} {data : PackageOnlyPackument}
    {new : NewPackage} (h : newPackage E package seq diffEntryId data = .ok new) :
    new.name = package ∧ new.check = true ∧ new.distTagLatestVersion = none ∧
      packageStamps new = [(seq, diffEntryId)] := by
  cases data with
  | normal latest created modified otherDistTags extraVersionTimes =>
    cases latest with
    | none =>
      cases h
      exact ⟨rfl, rfl, rfl, rfl⟩
    | some l => cases h
  | unpublished created modified unpublishedBlob extraVersionTimes =>
    cases h
    exact ⟨rfl, rfl, rfl, rfl⟩
  | missingData =>
    cases h
    exact ⟨rfl, rfl, rfl, rfl⟩
  | deleted =>
    cases h
    exact ⟨rfl, rfl, rfl, rfl⟩

theorem createPackage_kept (hdb : RowsKept done db) (e : DiffLogEntry) (data : PackageOnlyPackument) :
    Hoare.Triple (OnConn (C := C) (SameRows db))
      (createPackage E e.packageName data e.seq e.id) (fun _ => OnConn (KeptAfter done e db))
      (SavesPackage db e.packageName) := by
  refine createPackage_onConn E _ _ _ _ (fun new hnew => ?_) fun p hp => ?_
  · obtain ⟨hname, hcheck, hlatest, hstamps⟩ := newPackage_kept E hnew
    exact hname ▸ insertNewPackage_kept hdb hcheck hlatest hstamps
  · cases data with
    | normal latest created modified otherDistTags extraVersionTimes =>
      cases latest with
      | none => cases hp
      | some l =>
        cases hp
        exact nofun
    | unpublished created modified unpublishedBlob extraVersionTimes => cases hp
    | missingData => cases hp
    | deleted => cases hp

include hC

theorem updatePackage_kept (hconstraints : Constraints db) (hdb : RowsKept done db)
    (e : DiffLogEntry) (data : PackageOnlyPackument) :
    Hoare.Triple (Fits (C := C) db)
      (EntryProcessor.updatePackage E e.packageName data e.seq e.id)
      (fun _ => OnConn (KeptAfter done e db)) (· ≠ .database "Error updating package") := by
  refine (updatePackage_writes E hC hconstraints e.packageName e.seq e.id
    (fun _ => ⟨by decide, by decide⟩) fun _ _ => ⟨fun _ _ _ => by decide, fun _ _ _ _ _ _ => by decide⟩).post
    fun _ w hw => ?_
  obtain ⟨p, new, hp, hnew, haccepted, hfits⟩ := hw
  obtain ⟨time, hhistory⟩ := hnew.history
  rw [OnConn, hfits.conn]
  exact hdb.updatePackage hconstraints (Rows.mem_of_find hp) haccepted.1
    ((hasColumns_applyDiff p new).history.trans hhistory)

theorem createVersion_kept (hdb : RowsKept done db) (e : DiffLogEntry) (v : Semver)
    (data : VersionOnlyPackument) :
    Hoare.Triple (Fits (C := C) db) (createVersion E e.packageName v data e.seq e.id)
      (fun _ => OnConn (KeptAfter done e db)) (SavesVersion db e.packageName v) := by
  have hother {p : Panic} (hp : p ≠ .database "Error saving new version") :
      SavesVersion db e.packageName v p := fun h => absurd h hp
  refine Hoare.Triple.bind (guardOr_fails (hother (by decide)) _) fun _ => ?_
  refine Hoare.Triple.bind (guardOr_fails (hother (by decide)) _) fun _ => ?_
  refine Hoare.Triple.bind (guardOr_fails (hother (by decide)) _) fun _ => ?_
  refine Hoare.Triple.bind (guardOr_fails (hother (by decide)) _) fun _ => ?_
  refine Hoare.Triple.bind (getPackageIdByName_fits hC (hother (by decide)))
    fun packageId => Hoare.Triple.of_and fun hid => ?_
  have hnew (t : DependencyType) (deps : List (String × Spec)) :
      Hoare.Triple (Fits (C := C) db) (newDependencies E t deps) (fun _ => Fits db)
        (SavesVersion db e.packageName v) := by
    refine Hoare.Triple.mapM deps (fun _ _ => Fits db) fun _ dep _ _ _ => ?_
    refine Hoare.Triple.bind (maybeGetPackageIdByName_fits hC dep.1) fun dst => ?_
    exact Hoare.Triple.pure fun w hw => hw.1
  refine Hoare.Triple.bind (hnew .prod _) fun prod => ?_
  refine Hoare.Triple.bind (hnew .dev _) fun dev => ?_
  refine Hoare.Triple.bind (hnew .peer _) fun peer => ?_
  refine Hoare.Triple.bind (hnew .optional _) fun optional => ?_
  have hstart : ∀ w : World C, Fits db w → OnConn (SameRows db) w := by
    intro w hw
    rw [OnConn, hw.conn]
    exact ⟨rfl, rfl⟩
  refine Hoare.Triple.pre ?_ hstart
  have hinsert (deps : List NewDependency) :
      Hoare.Triple (OnConn (C := C) (SameRows db)) (insertOrIncDependencies deps)
        (fun _ => OnConn (SameRows db)) (SavesVersion db e.packageName v) := by
    refine Hoare.Preserves.with_errors (onConn_insertOrIncDependencies sameRows_countsRows.counts
      fun dep _ => sameRows_countsRows.insert dep trivial) ?_
    exact insertOrIncDependencies_fails deps (hother (by decide)) (hother (by decide))
      (hother (by decide))
  refine Hoare.Triple.bind (hinsert _) fun ids => ?_
  refine Hoare.Triple.bind (onConn_query_triple
    (insertNewVersion_kept hdb (e := e) hid (by simp [NewVersion.check]) rfl)) fun _ => ?_
  exact Hoare.Triple.modifyState fun _ hw => hw

omit hC in
/-- A patch changes no row of packages or versions. -/
theorem patchPackageRefs_kept (hdb : RowsKept done db) (e : DiffLogEntry) :
    Hoare.Triple (OnConn (C := C) (SameRows db)) (patchPackageRefs E e.packageName)
      (fun _ => OnConn (KeptAfter done e db)) fun _ => True :=
  (onConn_patchPackageRefs E e.packageName fun id =>
    preserves_sameRows (updateDepsMissingPack_rows E.digests e.packageName id)).post
      fun _ _ hw => hdb.after e hw

/-- Why an entry may fail on a row of packages or versions: never for a check. -/
structure ChecksPass (w : World C) (e : DiffLogEntry) : Prop where
  create : ∀ data p, e.instr = .createPackage data → processEntry E e w = .error p →
    SavesPackage w.conn e.packageName p
  update : ∀ data p, e.instr = .updatePackage data → processEntry E e w = .error p →
    p ≠ .database "Error updating package"
  createVersion : ∀ v data p, e.instr = .createVersion v data → processEntry E e w = .error p →
    SavesVersion w.conn e.packageName v p

omit hC in
theorem sameRows_refl (db : Db) : SameRows db db := ⟨rfl, rfl⟩

theorem RowsKept.entry {w w' : World C} (hw : RowsInv w) (h : RowsKept done w.conn) {e : DiffLogEntry}
    (hrun : processEntry E e w = .ok ((), w')) : KeptAfter done e w.conn w'.conn := by
  obtain ⟨id, seq, name, instr⟩ := e
  have hids := hw.constraints.versions.nodup
  cases instr with
  | createPackage data =>
    exact (createPackage_kept E h ⟨id, seq, name, _⟩ data).of_ok (sameRows_refl _) hrun
  | updatePackage data =>
    exact (updatePackage_kept hC E hw.constraints h ⟨id, seq, name, _⟩ data).of_ok hw.fits hrun
  | patchPackageReferences =>
    exact (patchPackageRefs_kept E h ⟨id, seq, name, _⟩).of_ok (sameRows_refl _) hrun
  | createVersion v data =>
    exact (createVersion_kept hC E h ⟨id, seq, name, _⟩ v data).of_ok hw.fits hrun
  | updateVersion v data =>
    exact (sameRows_countsRows.updateVersion_onConn name v data (fun _ => h.after ⟨id, seq, name, _⟩)
      (setState_kept h hids .normal) setVersionExtraMetadata_kept).of_ok (sameRows_refl _) hrun
  | deleteVersion v =>
    exact (sameRows_countsRows.deleteVersion_onConn name v
      (setState_kept (e := ⟨id, seq, name, _⟩) h hids .deleted)).of_ok (sameRows_refl _) hrun

theorem RowsKept.checksPass {w : World C} (hw : RowsInv w) (h : RowsKept done w.conn)
    (e : DiffLogEntry) : ChecksPass E w e := by
  obtain ⟨id, seq, name, instr⟩ := e
  constructor
  · rintro data p ⟨⟩ hrun
    exact (createPackage_kept E h ⟨id, seq, name, _⟩ data).of_error (sameRows_refl _) hrun
  · rintro data p ⟨⟩ hrun
    exact (updatePackage_kept hC E hw.constraints h ⟨id, seq, name, _⟩ data).of_error hw.fits hrun
  · rintro v data p ⟨⟩ hrun
    exact (createVersion_kept hC E h ⟨id, seq, name, _⟩ v data).of_error hw.fits hrun

end Entries

section Runs

variable {E : Env} {done : List DiffLogEntry} {w w' : World C}

/-- The steps of the builder between entries, and an entry. -/
inductive BuilderStep (E : Env) : World C → World C → Prop where
  | entry {w w' : World C} (e : DiffLogEntry) (hrun : processEntry E e w = .ok ((), w')) :
    BuilderStep E w w'
  | flush {w w' : World C} (hrun : flushCaches w = .ok ((), w')) : BuilderStep E w w'
  | restart (w : World C) : BuilderStep E w (uncached C w.conn)

theorem flushCaches_sameRows (hrun : flushCaches w = .ok ((), w')) : SameRows w.conn w'.conn :=
  (onConn_flushCaches sameRows_countsRows.counts).of_ok (sameRows_refl w.conn) hrun

theorem Replay.rowsKept (hC : C.Lawful) (h : Replay E done w) :
    RowsInv w ∧ RowsKept done w.conn := by
  induction h with
  | start => exact ⟨rowsInv_uncached hC constraints_empty, rowsKept_empty⟩
  | entry _ hrun ih =>
    exact ⟨(preserves_processEntry E hC _).of_ok ih.1 hrun, (ih.2.entry hC E ih.1 hrun).kept⟩
  | flush _ hrun ih =>
    have hsame := flushCaches_sameRows hrun
    exact ⟨preserves_flushCaches.of_ok ih.1 hrun, ih.2.of_sameRows hsame⟩
  | restart _ ih => exact ⟨rowsInv_uncached hC ih.1.constraints, ih.2⟩

theorem Replay.step (hC : C.Lawful) (h : Replay E done w) (hstep : BuilderStep E w w') :
    (∃ done', Replay E done' w') ∧ HistoriesGrow w.conn w'.conn := by
  cases hstep with
  | entry e hrun =>
    obtain ⟨hinv, hkept⟩ := h.rowsKept hC
    exact ⟨⟨_, h.entry hrun⟩, (hkept.entry hC E hinv hrun).grows⟩
  | flush hrun => exact ⟨⟨_, h.flush hrun⟩, (flushCaches_sameRows hrun).grows⟩
  | restart => exact ⟨⟨_, h.restart⟩, (sameRows_refl _).grows⟩

theorem Replay.grows (hC : C.Lawful) (h : Replay E done w)
    (hsteps : Relation.ReflTransGen (BuilderStep E) w w') :
    (∃ done', Replay E done' w') ∧ HistoriesGrow w.conn w'.conn := by
  induction hsteps with
  | refl => exact ⟨⟨done, h⟩, (sameRows_refl _).grows⟩
  | tail _ hstep ih =>
    obtain ⟨⟨done', hreplay⟩, hgrows⟩ := ih
    obtain ⟨hreplay', hgrows'⟩ := hreplay.step hC hstep
    exact ⟨hreplay', hgrows.trans hgrows'⟩

/-- Entries in the order of their ids, whose seqs never fall. -/
def InIdOrder (log : List DiffLogEntry) : Prop := log.Pairwise fun a b => a.id < b.id ∧ a.seq ≤ b.seq

/-- Every row passes the checks of its table, its history is in the order of the log, and the last
point of the history is the current state. -/
structure HistoriesRight (db : Db) : Prop where
  packageChecks : ∀ p ∈ db.packages.rows, p.check = true
  versionChecks : ∀ v ∈ db.versions.rows, v.check = true
  packages : ∀ p ∈ db.packages.rows,
    (p.packageStateHistory.Pairwise fun a b => a.seq ≤ b.seq ∧ a.diffEntryId < b.diffEntryId) ∧
      p.packageStateHistory.getLast?.map (·.state) = some p.currentPackageStateType
  versions : ∀ v ∈ db.versions.rows,
    (v.versionStateHistory.Pairwise fun a b => a.seq ≤ b.seq ∧ a.diffEntryId < b.diffEntryId) ∧
      v.versionStateHistory.getLast?.map (·.state) = some v.currentVersionStateType

theorem pairwise_of_stamps {τ : Type} {stamp : τ → ℤ × ℤ} {history : List τ}
    (horder : InIdOrder done) (h : (history.map stamp).Sublist (entryStamps done)) :
    history.Pairwise fun a b => (stamp a).1 ≤ (stamp b).1 ∧ (stamp a).2 < (stamp b).2 := by
  have hstamps : (entryStamps done).Pairwise fun a b => a.1 ≤ b.1 ∧ a.2 < b.2 :=
    List.pairwise_map.mpr (horder.imp fun hab => ⟨hab.2, hab.1⟩)
  exact List.pairwise_map.mp (hstamps.sublist h)

theorem map_eq_some_of_any {α β : Type} [DecidableEq β] {o : Option α} {f : α → β} {b : β}
    (h : (o.any fun a => f a = b) = true) : o.map f = some b := by
  cases o with
  | none => cases h
  | some a => exact congrArg some (of_decide_eq_true h)

theorem RowsKept.historiesRight {db : Db} (h : RowsKept done db) (horder : InIdOrder done) :
    HistoriesRight db where
  packageChecks := h.packageChecks
  versionChecks := h.versionChecks
  packages p hp := by
    have hcheck := h.packageChecks p hp
    rw [NewPackage.check, Bool.and_eq_true] at hcheck
    exact ⟨pairwise_of_stamps horder (h.packages p hp), map_eq_some_of_any hcheck.1⟩
  versions v hv :=
    ⟨pairwise_of_stamps horder (h.versions v hv), map_eq_some_of_any (h.versionChecks v hv)⟩

/-- In every run over an ordered log the rows pass their checks and have histories in the order of
the log; no entry fails on a check, and whatever comes next only appends to the histories. -/
theorem historiesRight_of_replay (hC : C.Lawful) (horder : InIdOrder done) (h : Replay E done w) :
    HistoriesRight w.conn ∧ (∀ e, ChecksPass E w e) ∧
      ∀ w', Relation.ReflTransGen (BuilderStep E) w w' → HistoriesGrow w.conn w'.conn := by
  obtain ⟨hinv, hkept⟩ := h.rowsKept hC
  exact ⟨hkept.historiesRight horder, hkept.checksPass hC E hinv, fun w' hsteps =>
    (h.grows hC hsteps).2⟩

/-- A package and its version, both changed twice. -/
def historyEntries : List DiffLogEntry :=
  [⟨1, 1, "p", .createPackage .deleted⟩,
    ⟨2, 1, "p", .createVersion ⟨1, 0, 0, [], []⟩ sampleVersion⟩,
    ⟨3, 1, "p", .patchPackageReferences⟩, ⟨4, 2, "p", .deleteVersion ⟨1, 0, 0, [], []⟩⟩,
    ⟨5, 3, "p", .updatePackage .missingData⟩,
    ⟨6, 3, "p", .updateVersion ⟨1, 0, 0, [], []⟩ sampleVersion⟩]

/-- The seqs and ids in the histories at the end. -/
def stampsAfter (C : LruCaches) (entries : List DiffLogEntry) :
    Option (List (List (ℤ × ℤ)) × List (List (ℤ × ℤ))) :=
  (processEntries numberEnv entries (uncached C .empty)).toOption.map fun r =>
    (r.2.conn.packages.rows.map fun p => packageStamps p.toNewPackage,
      r.2.conn.versions.rows.map fun v => versionStamps v.toNewVersion)

theorem historiesRight_of_replay_undeleted : ∃ w : World (.ofCapacity 1),
    Replay numberEnv historyEntries w ∧ HistoriesRight w.conn ∧
      (∀ e, ChecksPass numberEnv w e) ∧ HistoriesGrow w.conn w.conn ∧
      w.conn.packages.rows.map (fun p => packageStamps p.toNewPackage) = [[(1, 1), (3, 5)]] ∧
      w.conn.versions.rows.map (fun v => versionStamps v.toNewVersion) =
        [[(1, 2), (2, 4), (3, 6)]] := by
  have hstamps : stampsAfter (.ofCapacity 1) historyEntries =
      some ([[(1, 1), (3, 5)]], [[(1, 2), (2, 4), (3, 6)]]) := by
    decide +kernel
  obtain ⟨⟨_, w⟩, hrun, hrows⟩ := Hoare.exists_ok_of_toOption hstamps
  have hreplay := Replay.start.of_processEntries hrun
  have horder : InIdOrder historyEntries := by simp [InIdOrder, historyEntries]
  obtain ⟨hright, hchecks, hgrows⟩ :=
    historiesRight_of_replay (LruCaches.ofCapacity_lawful 1) horder hreplay
  obtain ⟨hpackages, hversions⟩ := Prod.mk.inj hrows
  exact ⟨w, hreplay, hright, hchecks, hgrows w .refl, hpackages, hversions⟩

end Runs

end NpmFollower.RelationalDbBuilder
