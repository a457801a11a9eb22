import NpmFollower.RelationalDbBuilder.EntryEffects
import NpmFollower.RelationalDbBuilder.RowCaches

/-! # Writes through the caches

An update of a package changes its cached row and its row in the table alike. No
entry of the diff log breaks the agreement of the caches with the tables.
-/

namespace NpmFollower.RelationalDbBuilder

open Std PostgresDb RelationalDbAccessor EntryProcessor

variable {C : LruCaches}

/-- The database after an update of one package. -/
def withPackageUpdate (db : Db) (id : ℤ) (diff : PackageUpdate) : Db :=
  { db with packages := { db.packages with
    rows := Rows.updateWhere Package.id db.packages.rows id (·.applyDiff diff) } }

/-- The row meets the conditions that its table imposes. -/
def Accepted (db : Db) (p : Package) : Prop :=
  p.check = true ∧ ∀ v, p.distTagLatestVersion = some v → ∃ row ∈ db.versions.rows, row.id = v

section UpdatePackage

variable {db : Db} (hdb : Constraints db) {p : Package} {diff : PackageUpdate}

theorem packageOf_withPackageUpdate (name : String) :
    packageOf (withPackageUpdate db p.id diff) name =
      (packageOf db name).map fun q => if q.id = p.id then q.applyDiff diff else q := by
  rw [packageOf, packageOf, withPackageUpdate, Rows.updateWhere,
    Rows.find_map (fun r => by split_ifs <;> rfl)]

theorem packageOf_update_self {name : String} (hp : packageOf db name = some p) :
    packageOf (withPackageUpdate db p.id diff) name = some (p.applyDiff diff) := by
  rw [packageOf_withPackageUpdate, hp, Option.map_some, if_pos rfl]

include hdb

theorem Constraints.eq_of_id {p q : Package} (hp : p ∈ db.packages.rows) (hq : q ∈ db.packages.rows)
    (h : p.id = q.id) : p = q :=
  List.inj_on_of_nodup_map hdb.packages.nodup hp hq h

theorem packageOf_update_of_ne {name name' : String} (hp : packageOf db name = some p)
    (hne : name' ≠ name) :
    packageOf (withPackageUpdate db p.id diff) name' = packageOf db name' := by
  rw [packageOf_withPackageUpdate]
  cases hq : packageOf db name' with
  | none => rfl
  | some q =>
    rw [Option.map_some, if_neg]
    intro hid
    have heq := hdb.eq_of_id (Rows.mem_of_find hq) (Rows.mem_of_find hp) hid
    have hname := Rows.key_of_find hp
    have hname' := Rows.key_of_find hq
    rw [heq, hname] at hname'
    exact hne hname'.symm

theorem Constraints.update (hp : p ∈ db.packages.rows) (haccepted : Accepted db (p.applyDiff diff)) :
    Constraints (withPackageUpdate db p.id diff) where
  packages := hdb.packages.of_map_eq
    (Rows.map_updateWhere (f := fun q : Package => q.applyDiff diff) (fun _ => rfl) _ _) le_rfl
  names := by
    have hmap : (Rows.updateWhere Package.id db.packages.rows p.id (·.applyDiff diff)).map
        (fun p => p.name) = db.packages.rows.map fun p => p.name :=
      Rows.map_updateWhere (f := fun q : Package => q.applyDiff diff) (fun _ => rfl) _ _
    rw [withPackageUpdate, hmap]
    exact hdb.names
  versions := hdb.versions
  checks q hq := by
    obtain ⟨r, hr, rfl⟩ := Rows.mem_updateWhere.mp hq
    split_ifs with hid
    · rw [hdb.eq_of_id hr hp hid]
      exact haccepted.1
    · exact hdb.checks r hr
  latest q hq v hv := by
    obtain ⟨r, hr, rfl⟩ := Rows.mem_updateWhere.mp hq
    split_ifs at hv with hid
    · rw [hdb.eq_of_id hr hp hid] at hv
      exact haccepted.2 v hv
    · exact hdb.latest r hr v hv

variable (diff) in
/-- The guard of the statement, over all rows with the id. -/
theorem updatePackage_guard (hp : p ∈ db.packages.rows) :
    (((db.packages.rows.filter (·.id = p.id)).map (·.applyDiff diff)).all fun q =>
      q.check && q.distTagLatestVersion.all fun v => db.versions.rows.any (·.id = v)) = true ↔
        Accepted db (p.applyDiff diff) := by
  have hone : ∀ q ∈ (db.packages.rows.filter (·.id = p.id)).map (·.applyDiff diff),
      q = p.applyDiff diff := by
    intro q hq
    obtain ⟨r, hr, rfl⟩ := List.mem_map.mp hq
    obtain ⟨hmem, hid⟩ := List.mem_filter.mp hr
    rw [hdb.eq_of_id hmem hp (by simpa using hid)]
  have hmem : p.applyDiff diff ∈ (db.packages.rows.filter (·.id = p.id)).map (·.applyDiff diff) :=
    List.mem_map_of_mem (List.mem_filter.mpr ⟨hp, by simp⟩)
  rw [List.all_eq_true]
  constructor
  · intro h
    have hself := Bool.and_eq_true_iff.mp (h _ hmem)
    refine ⟨hself.1, fun v hv => ?_⟩
    rw [hv, Option.all_some, List.any_eq_true] at hself
    simpa using hself.2
  · intro h q hq
    rw [hone q hq, h.1, Bool.true_and]
    cases hlatest : (p.applyDiff diff).distTagLatestVersion with
    | none => rfl
    | some v =>
      rw [Option.all_some, List.any_eq_true]
      simpa using h.2 v hlatest

variable (diff) in
/-- The statement succeeds just where the changed row is accepted. -/
theorem updatePackage_query (hp : p ∈ db.packages.rows) :
    match Packages.updatePackage p.id diff db with
    | .ok (_, db') => Accepted db (p.applyDiff diff) ∧ db' = withPackageUpdate db p.id diff
    | .error e => ¬Accepted db (p.applyDiff diff) ∧ e = .database "Error updating package" := by
  have hguard := updatePackage_guard hdb diff hp
  simp only [Packages.updatePackage, Hoare.bind_apply, Hoare.get_apply, guardOr_apply]
  split_ifs with h
  · exact ⟨hguard.mp h, rfl⟩
  · exact ⟨fun haccepted => h (hguard.mpr haccepted), rfl⟩

/-- The caches have the changed row before the table has it. -/
structure FitsNext (db : Db) (id : ℤ) (diff : PackageUpdate) (w : World C) : Prop where
  conn : w.conn = db
  next : Fits (withPackageUpdate db id diff) { w with conn := withPackageUpdate db id diff }

variable (diff) in
theorem popPackageData_fits (hC : C.Lawful) {name : String} (hp : packageOf db name = some p)
    {F : Panic → Prop} :
    Hoare.Triple (Fits (C := C) db) (popPackageData name)
      (fun found w => FitsNext db p.id diff w ∧ ∀ e, found = some e → e = p) F := by
  intro w hw
  change FitsNext db p.id diff (w.withPackageData _) ∧ ∀ e, (C.packageData.pop _ name).1 = some e → _
  rw [hC.packageData.pop_fst]
  refine ⟨⟨hw.conn, ⟨rfl, ?_, ?_, ?_⟩⟩, fun e he => ?_⟩
  · intro name' id hentry
    rw [withPackageUpdate, packageIdOf_update]
    exact hw.packageIds name' id hentry
  · intro name' q hentry
    change C.packageData.peek (C.packageData.pop _ _).2 _ = _ at hentry
    rw [hC.packageData.peek_pop] at hentry
    split_ifs at hentry with hname
    rw [packageOf_update_of_ne hdb hp hname]
    exact hw.packageData name' q hentry
  · exact hw.versionIds
  · have hrow := hw.packageData name e he
    rw [hp] at hrow
    exact (Option.some.inj hrow).symm

theorem updatePackage_fits (hC : C.Lawful) (E : Env) {name : String}
    (hp : packageOf db name = some p) {F : Panic → Prop}
    (hF : ¬Accepted db (p.applyDiff diff) → F (.database "Error updating package")) :
    Hoare.Triple (Fits (C := C) db) (RelationalDbAccessor.updatePackage E p.id name diff)
      (fun _ w => Accepted db (p.applyDiff diff) ∧ Fits (withPackageUpdate db p.id diff) w) F := by
  have hquery : Hoare.Triple (FitsNext (C := C) db p.id diff) (query (Packages.updatePackage p.id diff))
      (fun _ w => Accepted db (p.applyDiff diff) ∧ Fits (withPackageUpdate db p.id diff) w) F := by
    intro w hw
    have hrun := updatePackage_query hdb diff (Rows.mem_of_find hp)
    rw [query, hw.conn]
    cases h : Packages.updatePackage p.id diff db with
    | error e =>
      rw [h] at hrun
      rw [hrun.2]
      exact hF hrun.1
    | ok r =>
      rw [h] at hrun
      refine ⟨hrun.1, ?_⟩
      rw [hrun.2]
      exact hw.next
  refine Hoare.Triple.bind (popPackageData_fits hdb diff hC hp)
    fun found => Hoare.Triple.of_and fun h => ?_
  cases found with
  | none => exact hquery
  | some e =>
    obtain rfl := h e rfl
    have hself : packageOf (withPackageUpdate db e.id diff) (e.applyDiff diff).name =
        some (e.applyDiff diff) := by
      have hname := Rows.key_of_find hp
      rw [Package.applyDiff_name, hname]
      exact packageOf_update_self hp
    have hput : Hoare.Triple (FitsNext (C := C) db e.id diff) (putPackageData E (e.applyDiff diff))
        (fun _ => FitsNext db e.id diff) F := by
      intro w hw
      have hnext := putPackageData_fits hC E hself (F := F) _ hw.next
      exact ⟨hw.conn, hnext⟩
    exact Hoare.Triple.bind hput fun _ => hquery

end UpdatePackage

section Preserved

variable (hC : C.Lawful) (E : Env)

/-- Rows and caches of packages and versions are all that the invariant speaks of. -/
theorem RowsInv.congr {w w' : World C} (h : RowsInv w) (hpackages : w'.conn.packages = w.conn.packages)
    (hversions : w'.conn.versions = w.conn.versions)
    (hids : w'.accessor.packageIdCache = w.accessor.packageIdCache)
    (hdata : w'.accessor.packageDataCache = w.accessor.packageDataCache)
    (hvids : w'.accessor.versionIdCache = w.accessor.versionIdCache) : RowsInv w' := by
  obtain ⟨⟨⟩, ⟨⟩⟩ := w
  obtain ⟨⟨⟩, ⟨⟩⟩ := w'
  dsimp only at hpackages hversions hids hdata hvids
  subst hpackages hversions hids hdata hvids
  exact ⟨⟨h.1.1, h.1.2, h.1.3, h.1.4, h.1.5⟩, ⟨rfl, h.2.2, h.2.3, h.2.4⟩⟩

theorem RowsInv.of_fits {db : Db} {w : World C} (hdb : Constraints db) (hw : Fits db w) : RowsInv w :=
  ⟨hw.conn ▸ hdb, hw.conn ▸ hw⟩

/-- A read through the caches. -/
theorem preserves_of_fits {α : Type} {x : Run C α} {Q : Db → α → World C → Prop}
    (h : ∀ db, Constraints db →
      Hoare.Triple (Fits db) x (fun a w => Fits db w ∧ Q db a w) fun _ => True) :
    Hoare.Preserves RowsInv x := by
  intro w hw
  have hrun := h w.conn hw.constraints w hw.fits
  cases hx : x w with
  | error e => trivial
  | ok r =>
    rw [hx] at hrun
    exact .of_fits hw.constraints hrun.1

/-- A statement on the dependencies alone. -/
theorem preserves_query {α : Type} {q : Query α}
    (hq : ∀ db a db', q db = .ok (a, db') →
      db'.packages = db.packages ∧ db'.versions = db.versions) :
    Hoare.Preserves (RowsInv (C := C)) (query q) := by
  intro w hw
  rw [query]
  cases h : q w.conn with
  | error e => trivial
  | ok r =>
    obtain ⟨hpackages, hversions⟩ := hq _ _ _ h
    exact hw.congr hpackages hversions rfl rfl rfl

/-- A change of the accessor outside of the three caches. -/
theorem preserves_update {f : RelationalDbAccessor C → RelationalDbAccessor C}
    (hids : ∀ a, (f a).packageIdCache = a.packageIdCache)
    (hdata : ∀ a, (f a).packageDataCache = a.packageDataCache)
    (hvids : ∀ a, (f a).versionIdCache = a.versionIdCache) :
    Hoare.Preserves (RowsInv (C := C)) (update f) :=
  Hoare.Preserves.modifyState fun _ hw => hw.congr rfl rfl (hids _) (hdata _) (hvids _)

theorem preserves_expect {α : Type} {I : World C → Prop} (p : Panic) (o : Option α) :
    Hoare.Preserves I (expect p o : Run C α) := by
  cases o with
  | none => exact Hoare.Preserves.throw
  | some a => exact Hoare.Preserves.pure

theorem preserves_guardOr {I : World C → Prop} (p : Panic) (b : Bool) :
    Hoare.Preserves I (guardOr p b : Run C Unit) := by
  cases b with
  | false => exact Hoare.Preserves.throw
  | true => exact Hoare.Preserves.pure

theorem insertDependencyIncCounts_rows (dep : NewDependency) (db : Db) (r : ℤ × FreqCounts) (db' : Db)
    (h : Dependencies.insertDependencyIncCounts dep db = .ok (r, db')) :
    db'.packages = db.packages ∧ db'.versions = db.versions := by
  rw [insertDependencyIncCounts_eq] at h
  by_cases hnext : db.dependencies.nextId < 2 ^ 63
  · rw [if_pos hnext] at h
    cases hfind : Rows.find digest db.dependencies.rows dep.md5digestWithVersion with
    | some row =>
      simp only [hfind] at h
      cases hadd : row.counts.add dep.counts with
      | some counts =>
        simp only [hadd] at h
        cases h
        exact ⟨rfl, rfl⟩
      | none =>
        simp only [hadd] at h
        cases h
    | none =>
      simp only [hfind] at h
      split_ifs at h
      cases h
      exact ⟨rfl, rfl⟩
  · rw [if_neg hnext] at h
    cases h

theorem setDependencyCounts_rows (depId : ℤ) (counts : FreqCounts) (db : Db) (r : Unit) (db' : Db)
    (h : Dependencies.setDependencyCounts depId counts db = .ok (r, db')) :
    db'.packages = db.packages ∧ db'.versions = db.versions := by
  simp only [Dependencies.setDependencyCounts, Hoare.bind_apply, Hoare.get_apply, guardOr_apply] at h
  split_ifs at h
  cases h
  exact ⟨rfl, rfl⟩

theorem updateDepsMissingPack_rows (D : Digests) (name : String) (id : ℤ) (db : Db) (r : Unit)
    (db' : Db) (h : Dependencies.updateDepsMissingPack D name id db = .ok (r, db')) :
    db'.packages = db.packages ∧ db'.versions = db.versions := by
  simp only [Dependencies.updateDepsMissingPack, Hoare.bind_apply, Hoare.get_apply,
    guardOr_apply] at h
  split_ifs at h
  cases h
  exact ⟨rfl, rfl⟩

/-- A row that a statement expects to find. -/
theorem preserves_query_expect {ρ : Type} {p : Panic} {find : Db → Option ρ} :
    Hoare.Preserves (RowsInv (C := C)) (query (do expect p (find (← get)))) := by
  refine preserves_query fun db a db' h => ?_
  rw [Hoare.bind_apply, Hoare.get_apply] at h
  dsimp only at h
  rw [expect_apply] at h
  cases hfind : find db with
  | none =>
    rw [hfind] at h
    cases h
  | some r =>
    rw [hfind] at h
    cases h
    exact ⟨rfl, rfl⟩

theorem preserves_flushEvicted (evicted : Option (String × DependencyState)) :
    Hoare.Preserves (RowsInv (C := C)) (flushEvicted evicted) := by
  cases evicted with
  | none => exact Hoare.Preserves.pure
  | some e =>
    refine Hoare.Preserves.bind Hoare.Preserves.get fun w => ?_
    split_ifs
    · refine Hoare.Preserves.bind (preserves_update (fun _ => rfl) (fun _ => rfl) fun _ => rfl)
        fun _ => ?_
      exact preserves_query (setDependencyCounts_rows _ _)
    · exact Hoare.Preserves.pure

theorem preserves_insertOrIncDependency (dep : NewDependency) :
    Hoare.Preserves (RowsInv (C := C)) (insertOrIncDependency dep) := by
  refine Hoare.Preserves.bind Hoare.Preserves.get fun w => ?_
  split
  · refine Hoare.Preserves.bind (preserves_update (fun _ => rfl) (fun _ => rfl) fun _ => rfl)
      fun _ => ?_
    refine Hoare.Preserves.bind (preserves_expect _ _) fun counts => ?_
    refine Hoare.Preserves.bind (preserves_update (fun _ => rfl) (fun _ => rfl) fun _ => rfl)
      fun _ => ?_
    exact Hoare.Preserves.pure
  · refine Hoare.Preserves.bind (preserves_query (insertDependencyIncCounts_rows dep)) fun r => ?_
    refine Hoare.Preserves.bind Hoare.Preserves.get fun w => ?_
    refine Hoare.Preserves.bind (preserves_update (fun _ => rfl) (fun _ => rfl) fun _ => rfl)
      fun _ => ?_
    refine Hoare.Preserves.bind (preserves_flushEvicted _) fun _ => ?_
    exact Hoare.Preserves.pure

theorem preserves_insertOrIncDependencies (deps : List NewDependency) :
    Hoare.Preserves (RowsInv (C := C)) (insertOrIncDependencies deps) :=
  Hoare.Preserves.mapM preserves_insertOrIncDependency

theorem preserves_flushCaches : Hoare.Preserves (RowsInv (C := C)) flushCaches := by
  refine Hoare.Preserves.bind Hoare.Preserves.get fun w => ?_
  refine Hoare.Preserves.bind (Hoare.Preserves.forM fun hash => ?_) fun _ =>
    preserves_update (fun _ => rfl) (fun _ => rfl) fun _ => rfl
  refine Hoare.Preserves.bind Hoare.Preserves.get fun w' => ?_
  refine Hoare.Preserves.bind (preserves_expect _ _) fun state => ?_
  exact preserves_query (setDependencyCounts_rows _ _)

/-- Rows of versions changed in neither their key nor their id. -/
theorem RowsInv.updateVersions {w : World C} (h : RowsInv w) (id : ℤ) {f : Version → Version}
    (hkey : ∀ v, versionKey (f v) = versionKey v) (hid : ∀ v, (f v).id = v.id) :
    RowsInv { w with conn := { w.conn with versions := { w.conn.versions with
      rows := Rows.updateWhere Version.id w.conn.versions.rows id f } } } where
  constraints :=
    { packages := h.constraints.packages
      names := h.constraints.names
      versions := h.constraints.versions.of_map_eq (Rows.map_updateWhere hid _ _) le_rfl
      checks := h.constraints.checks
      latest := by
        intro p hp v hv
        obtain ⟨row, hrow, hrowid⟩ := h.constraints.latest p hp v hv
        refine ⟨_, Rows.mem_updateWhere.mpr ⟨row, hrow, rfl⟩, ?_⟩
        split_ifs
        exacts [(hid row).trans hrowid, hrowid] }
  fits :=
    { conn := rfl
      packageIds := h.fits.packageIds
      packageData := h.fits.packageData
      versionIds := by
        intro key id' hentry
        rw [versionIdOf_updateWhere w.conn id hkey hid]
        exact h.fits.versionIds key id' hentry }

theorem preserves_setState (state : VersionStateType) (id seq diffEntryId : ℤ)
    (time : Option DateTime) :
    Hoare.Preserves (RowsInv (C := C)) (query (Versions.setState state id seq diffEntryId time)) := by
  intro w hw
  simp only [query, Versions.setState, Versions.getVersionById, Hoare.bind_apply, Hoare.get_apply,
    expect_apply, Versions.updateWhereId, Hoare.modify_apply]
  cases hfind : Rows.find Version.id w.conn.versions.rows id with
  | none => trivial
  | some row => exact hw.updateVersions id (fun _ => rfl) fun _ => rfl

theorem preserves_setVersionExtraMetadata (id : ℤ) (data : Value) :
    Hoare.Preserves (RowsInv (C := C)) (query (Versions.setVersionExtraMetadata id data)) := by
  intro w hw
  simp only [query, Versions.setVersionExtraMetadata, Hoare.bind_apply, Hoare.get_apply,
    guardOr_apply, Versions.updateWhereId, Hoare.modify_apply]
  split_ifs with hone
  · exact hw.updateVersions id (fun _ => rfl) fun _ => rfl
  · trivial

/-- The conditions that the row of a new package has met. -/
theorem accepted_of_insertNewPackage {newPackage : NewPackage} {db db' : Db} {row : Package}
    (h : Packages.insertNewPackage newPackage db = .ok (row, db')) :
    newPackage.check = true ∧ ∀ v, newPackage.distTagLatestVersion = some v →
      ∃ r ∈ db.versions.rows, r.id = v := by
  simp only [Packages.insertNewPackage, Hoare.bind_apply, Hoare.get_apply, expect_apply,
    Table.nextval, guardOr_apply] at h
  by_cases hnext : db.packages.nextId < 2 ^ 63
  · simp only [if_pos hnext, Option.elim_some] at h
    split_ifs at h with hguard
    simp only [Bool.and_eq_true] at hguard
    refine ⟨hguard.1.1, fun v hv => ?_⟩
    have hlatest := hguard.2
    rw [hv, Option.all_some, List.any_eq_true] at hlatest
    simpa using hlatest
  · simp only [if_neg hnext] at h
    cases h

theorem packageOf_insert {db : Db} (row : Package) (n : ℤ) (hnone : packageOf db row.name = none)
    (name : String) :
    packageOf { db with packages := ({ db.packages with nextId := n } : Table Package).insert row } name =
      if name = row.name then some row else packageOf db name := by
  rw [packageOf, Table.insert, Rows.find_append_singleton]
  by_cases hname : row.name = name
  · subst hname
    rw [packageOf] at hnone
    rw [hnone, Option.none_or, if_pos rfl, if_pos rfl]
  · rw [if_neg hname, Option.or_none, if_neg (Ne.symm hname), packageOf]

include hC

theorem preserves_insertNewVersion (newVersion : NewVersion) :
    Hoare.Preserves (RowsInv (C := C)) (insertNewVersion newVersion) := by
  intro w hw
  have hquery := insertNewVersion_query newVersion w.conn
  rw [insertNewVersion, Hoare.bind_apply, query]
  cases hrun : Versions.insertNewVersion newVersion w.conn with
  | error e => trivial
  | ok r =>
    rw [hrun] at hquery
    obtain ⟨id, db'⟩ := r
    obtain ⟨rfl, hnone, rfl⟩ := hquery
    set row : Version := { newVersion with id := w.conn.versions.nextId }
    have hid := versionIdOf_insert row (w.conn.versions.nextId + 1) hnone
    refine ⟨⟨hw.constraints.packages, hw.constraints.names,
      hw.constraints.versions.insert (r := row) rfl, hw.constraints.checks, ?_⟩,
      ⟨rfl, hw.fits.packageIds, hw.fits.packageData, ?_⟩⟩
    · intro p hp v hv
      obtain ⟨r, hr, hrid⟩ := hw.constraints.latest p hp v hv
      exact ⟨r, List.mem_append_left _ hr, hrid⟩
    · intro key id hentry
      rw [hid]
      rcases hC.versionId.of_peek_put hentry with ⟨rfl, rfl⟩ | ⟨hkey, hentry⟩
      · exact if_pos rfl
      · rw [if_neg hkey]
        exact hw.fits.versionIds key id hentry

theorem preserves_insertNewPackage (newPackage : NewPackage) :
    Hoare.Preserves (RowsInv (C := C)) (insertNewPackage E newPackage) := by
  intro w hw
  have hquery := insertNewPackage_query newPackage w.conn
  rw [insertNewPackage, Hoare.bind_apply, query]
  cases hrun : Packages.insertNewPackage newPackage w.conn with
  | error e => trivial
  | ok r =>
    rw [hrun] at hquery
    obtain ⟨row, db'⟩ := r
    obtain ⟨rfl, hnone, rfl⟩ := hquery
    obtain ⟨hcheck, hlatest⟩ := accepted_of_insertNewPackage hrun
    set row : Package := { newPackage with id := w.conn.packages.nextId }
    have hid := packageIdOf_insert row (w.conn.packages.nextId + 1) hnone
    have hof := packageOf_insert row (w.conn.packages.nextId + 1) (Option.map_eq_none_iff.mp hnone)
    refine ⟨⟨hw.constraints.packages.insert rfl, ?_, hw.constraints.versions, ?_, ?_⟩,
      ⟨rfl, ?_, ?_, hw.fits.versionIds⟩⟩
    · have hnot : ∀ p ∈ w.conn.packages.rows, p.name ≠ row.name := by
        rw [packageIdOf, Option.map_eq_none_iff, Rows.find_eq_none_iff] at hnone
        exact hnone
      change ((w.conn.packages.rows ++ [row]).map fun p => p.name).Nodup
      rw [List.map_append, List.map_singleton, List.nodup_append]
      refine ⟨hw.constraints.names, List.nodup_singleton _, fun a ha b hb => ?_⟩
      obtain ⟨p, hp, rfl⟩ := List.mem_map.mp ha
      rw [List.mem_singleton.mp hb]
      exact hnot p hp
    · intro p hp
      rcases List.mem_append.mp hp with hp | hp
      · exact hw.constraints.checks p hp
      · rw [List.mem_singleton.mp hp]
        exact hcheck
    · intro p hp v hv
      rcases List.mem_append.mp hp with hp | hp
      · exact hw.constraints.latest p hp v hv
      · rw [List.mem_singleton.mp hp] at hv
        exact hlatest v hv
    · intro name id hentry
      rw [hid]
      rcases hC.packageId.of_peek_put hentry with ⟨rfl, rfl⟩ | ⟨hname, hentry⟩
      · exact if_pos rfl
      · rw [if_neg hname]
        exact hw.fits.packageIds name id hentry
    · intro name p hentry
      rw [hof]
      rcases hC.packageData.of_peek_putWithCost hentry with ⟨rfl, rfl⟩ | ⟨hname, hentry⟩
      · exact if_pos rfl
      · rw [if_neg hname]
        exact hw.fits.packageData name p hentry

end Preserved

end NpmFollower.RelationalDbBuilder
