import NpmFollower.RelationalDbBuilder.TableInvariants
import NpmFollower.RelationalDbBuilder.DependencyKeys
import NpmFollower.RelationalDbBuilder.LiveCounters

/-! # The rows that versions refer to

Every row of dependencies belongs to a dependency of some version, and the ids
in the arrays of a version are those of the rows with the keys of its own
dependencies. No later entry changes either.
-/

namespace NpmFollower.RelationalDbBuilder

open Std PostgresDb RelationalDbAccessor EntryProcessor

variable {C : LruCaches} (E : Env)

/-- A dependency of a version that one of the entries creates. -/
def CreatedDep (entries : List DiffLogEntry) (dep : String × Spec) : Prop :=
  ∃ e ∈ entries, ∃ v data, e.instr = .createVersion v data ∧ ∃ t, dep ∈ dependenciesOf data t

/-- The columns that a row has from its dependency. -/
structure IsRowOf (D : Digests) (dep : String × Spec) (new : NewDependency) : Prop where
  name : new.dstPackageName = dep.1
  raw : new.rawSpec = dep.2.raw
  parsed : new.spec = dep.2.parsed
  digest : new.md5digestWithVersion = keyOf D dep

/-- What never changes in the row of a version. -/
def versionRow (v : Version) : ℤ × (ℤ × Semver) × (DependencyType → List ℤ) :=
  (v.id, versionKey v, v.dependencies)

/-- The rows of dependencies belong to the given ones, and the versions are those of `db₀` or
have been inserted since. -/
structure StoredFrom (D : Digests) (P : String × Spec → Prop) (db₀ db : Db) : Prop where
  dependencies : ∀ d ∈ db.dependencies.rows, ∃ dep, P dep ∧ IsRowOf D dep d.toNewDependency
  nextId : db₀.versions.nextId ≤ db.versions.nextId
  versions : ∀ v ∈ db.versions.rows, db₀.versions.nextId ≤ v.id ∨
    ∃ v₀ ∈ db₀.versions.rows, versionRow v = versionRow v₀

section Statements

variable {D : Digests} {P : String × Spec → Prop} {db₀ db : Db}

theorem StoredFrom.setPackages (h : StoredFrom D P db₀ db) (packages : Table Package) :
    StoredFrom D P db₀ { db with packages } :=
  ⟨h.dependencies, h.nextId, h.versions⟩

theorem StoredFrom.setDependencies (h : StoredFrom D P db₀ db) {dependencies : Table Dependency}
    (hrows : ∀ d ∈ dependencies.rows, ∃ dep, P dep ∧ IsRowOf D dep d.toNewDependency) :
    StoredFrom D P db₀ { db with dependencies } :=
  ⟨hrows, h.nextId, h.versions⟩

/-- Rows of dependencies changed in other columns still belong to their dependencies. -/
theorem StoredFrom.mapDependencies (h : StoredFrom D P db₀ db) (f : Dependency → Dependency) (nextId : ℤ)
    (hf : ∀ d dep, IsRowOf D dep d.toNewDependency → IsRowOf D dep (f d).toNewDependency) :
    StoredFrom D P db₀ { db with dependencies := ⟨db.dependencies.rows.map f, nextId⟩ } := by
  refine h.setDependencies fun d hd => ?_
  obtain ⟨r, hr, rfl⟩ := List.mem_map.mp hd
  obtain ⟨dep, hdep, hrow⟩ := h.dependencies r hr
  exact ⟨dep, hdep, hf r dep hrow⟩

theorem isRowOf_ite {p : Prop} [Decidable p] {dep : String × Spec} {d d' : Dependency}
    (h : IsRowOf D dep d.toNewDependency) (h' : IsRowOf D dep d'.toNewDependency) :
    IsRowOf D dep (if p then d' else d).toNewDependency := by
  split_ifs
  exacts [h', h]

theorem storedFrom_keepsCounts : KeepsCounts (StoredFrom D P db₀) := by
  intro depId counts db hdb
  simp only [Dependencies.setDependencyCounts, Hoare.bind_apply, Hoare.get_apply, guardOr_apply]
  split_ifs
  · exact hdb.mapDependencies _ _ fun d dep hrow =>
      isRowOf_ite hrow ⟨hrow.name, hrow.raw, hrow.parsed, hrow.digest⟩
  · trivial

theorem storedFrom_insertDependencyIncCounts {dep : String × Spec} {new : NewDependency}
    (hdep : P dep) (hnew : IsRowOf D dep new) :
    Hoare.Preserves (StoredFrom D P db₀) (Dependencies.insertDependencyIncCounts new) := by
  intro db hdb
  rw [insertDependencyIncCounts_eq]
  by_cases hnext : db.dependencies.nextId < 2 ^ 63
  · rw [if_pos hnext]
    cases Rows.find digest db.dependencies.rows new.md5digestWithVersion with
    | some row =>
      dsimp only
      cases row.counts.add new.counts with
      | some counts =>
        exact hdb.mapDependencies _ _ fun d dep hrow =>
          isRowOf_ite hrow ⟨hrow.name, hrow.raw, hrow.parsed, hrow.digest⟩
      | none => trivial
    | none =>
      dsimp only
      split_ifs
      · refine hdb.setDependencies fun d hd => ?_
        rcases List.mem_append.mp hd with hd | hd
        · exact hdb.dependencies d hd
        · rw [List.mem_singleton.mp hd]
          exact ⟨dep, hdep, hnew⟩
      · trivial
  · rw [if_neg hnext]
    trivial

theorem storedFrom_updateDepsMissingPack (name : String) (id : ℤ) :
    Hoare.Preserves (StoredFrom D P db₀) (Dependencies.updateDepsMissingPack D name id) := by
  intro db hdb
  simp only [Dependencies.updateDepsMissingPack, Hoare.bind_apply, Hoare.get_apply, guardOr_apply]
  split_ifs
  · exact hdb.mapDependencies _ _ fun d dep hrow =>
      isRowOf_ite hrow ⟨hrow.name, hrow.raw, hrow.parsed, hrow.digest⟩
  · trivial

theorem storedFrom_insertNewPackage (new : NewPackage) :
    Hoare.Preserves (StoredFrom D P db₀) (Packages.insertNewPackage new) := by
  intro db hdb
  have hquery := insertNewPackage_query new db
  cases hrun : Packages.insertNewPackage new db with
  | error e => trivial
  | ok r =>
    rw [hrun] at hquery
    obtain ⟨row, db'⟩ := r
    obtain ⟨-, -, rfl⟩ := hquery
    exact hdb.setPackages _

theorem storedFrom_updatePackage (id : ℤ) (diff : PackageUpdate) :
    Hoare.Preserves (StoredFrom D P db₀) (Packages.updatePackage id diff) := by
  intro db hdb
  simp only [Packages.updatePackage, Hoare.bind_apply, Hoare.get_apply, guardOr_apply]
  split_ifs
  · exact hdb.setPackages _
  · trivial

theorem storedFrom_insertNewVersion (new : NewVersion) :
    Hoare.Preserves (StoredFrom D P db₀) (Versions.insertNewVersion new) := by
  intro db hdb
  have hquery := insertNewVersion_query new db
  cases hrun : Versions.insertNewVersion new db with
  | error e => trivial
  | ok r =>
    rw [hrun] at hquery
    obtain ⟨id, db'⟩ := r
    obtain ⟨rfl, -, rfl⟩ := hquery
    refine ⟨hdb.dependencies, hdb.nextId.trans (lt_add_one _).le, fun v hv => ?_⟩
    rcases List.mem_append.mp hv with hv | hv
    · exact hdb.versions v hv
    · rw [List.mem_singleton.mp hv]
      exact .inl hdb.nextId

theorem StoredFrom.updateVersions (h : StoredFrom D P db₀ db) (id : ℤ) {f : Version → Version}
    (hf : ∀ v, versionRow (f v) = versionRow v) :
    StoredFrom D P db₀ { db with versions := { db.versions with
      rows := Rows.updateWhere Version.id db.versions.rows id f } } := by
  refine ⟨h.dependencies, h.nextId, fun v hv => ?_⟩
  obtain ⟨r, hr, rfl⟩ := Rows.mem_updateWhere.mp hv
  have hrow : versionRow (if r.id = id then f r else r) = versionRow r := by
    split_ifs
    exacts [hf r, rfl]
  have hid : (if r.id = id then f r else r).id = r.id := congrArg Prod.fst hrow
  rw [hid, hrow]
  exact h.versions r hr

theorem storedFrom_setState (state : VersionStateType) (id seq diffEntryId : ℤ)
    (time : Option DateTime) :
    Hoare.Preserves (StoredFrom D P db₀) (Versions.setState state id seq diffEntryId time) := by
  intro db hdb
  simp only [Versions.setState, Versions.getVersionById, Hoare.bind_apply, Hoare.get_apply,
    expect_apply, Versions.updateWhereId, Hoare.modify_apply]
  cases Rows.find Version.id db.versions.rows id with
  | none => trivial
  | some row => exact hdb.updateVersions id fun v => rfl

theorem storedFrom_setVersionExtraMetadata (id : ℤ) (data : Value) :
    Hoare.Preserves (StoredFrom D P db₀) (Versions.setVersionExtraMetadata id data) := by
  intro db hdb
  simp only [Versions.setVersionExtraMetadata, Hoare.bind_apply, Hoare.get_apply, guardOr_apply,
    Versions.updateWhereId, Hoare.modify_apply]
  split_ifs
  · exact hdb.updateVersions id fun v => rfl
  · trivial

theorem storedFrom_keepsVersions (seq diffEntryId : ℤ) :
    KeepsVersions (StoredFrom D P db₀) (fun new => ∃ dep, P dep ∧ IsRowOf D dep new) seq
      diffEntryId where
  counts := storedFrom_keepsCounts
  rows db hdb d hd counts := by
    obtain ⟨dep, hdep, hrow⟩ := hdb.dependencies d hd
    exact ⟨dep, hdep, hrow.name, hrow.raw, hrow.parsed, hrow.digest⟩
  insert new hnew := by
    obtain ⟨dep, hdep, hrow⟩ := hnew
    exact storedFrom_insertDependencyIncCounts hdep hrow
  setState state versionId := storedFrom_setState _ _ _ _ _
  setExtraMetadata versionId data := storedFrom_setVersionExtraMetadata _ _

end Statements

/-- An entry inserts rows for the dependencies of the version that it creates, and no others. -/
theorem storedFrom_processEntry {P : String × Spec → Prop} {db₀ : Db} (e : DiffLogEntry)
    (hP : ∀ dep, CreatedDep [e] dep → P dep) :
    Hoare.Preserves (OnConn (C := C) (StoredFrom E.digests P db₀)) (processEntry E e) := by
  obtain ⟨id, seq, name, instr⟩ := e
  cases instr with
  | createPackage data =>
    exact onConn_createPackage E _ _ _ _ fun new _ => storedFrom_insertNewPackage new
  | updatePackage data => exact onConn_updatePackage E _ _ _ _ storedFrom_updatePackage
  | patchPackageReferences =>
    exact onConn_patchPackageRefs E _ fun id => storedFrom_updateDepsMissingPack name id
  | createVersion v data =>
    refine onConn_createVersion E _ _ _ _ _ storedFrom_keepsCounts (fun t dep hdep dst => ?_)
      storedFrom_insertNewVersion
    have hcreated : CreatedDep [⟨id, seq, name, .createVersion v data⟩] dep :=
      ⟨_, List.mem_singleton_self _, v, data, rfl, t, hdep⟩
    exact storedFrom_insertDependencyIncCounts (hP dep hcreated) ⟨rfl, rfl, rfl, rfl⟩
  | updateVersion v data => exact onConn_updateVersion (storedFrom_keepsVersions seq id) _ _ _
  | deleteVersion v => exact onConn_deleteVersion (storedFrom_keepsVersions seq id) _ _

section Creation

variable {w₀ w : World C}

/-- The id is the one of a row with the key of the dependency. -/
def RefersByKey (D : Digests) (db : Db) (id : ℤ) (dep : String × Spec) : Prop :=
  ∃ d ∈ db.dependencies.rows, d.id = id ∧ digest d = keyOf D dep

/-- The row of a version, whose arrays refer to the rows of its dependencies. -/
def StoresVersion (D : Digests) (db : Db) (name : String) (v : Semver) (data : VersionOnlyPackument) :
    Prop :=
  ∃ packageId row, packageIdOf db name = some packageId ∧
    Rows.find versionKey db.versions.rows (packageId, v) = some row ∧
    ∀ t, List.Forall₂ (RefersByKey D db) (row.dependencies t) (dependenciesOf data t)

/-- The new rows of one type stand for the dependencies of this type, in their order. -/
def NewRows (D : Digests) (t : DependencyType) (deps : List (String × Spec))
    (new : List (NewDependency × DependencyType)) : Prop :=
  List.Forall₂ (fun dep e => e.1.md5digestWithVersion = keyOf D dep ∧ e.2 = t) deps new

theorem newDependencies_rows (hC : C.Lawful) (t : DependencyType) (deps : List (String × Spec)) :
    Hoare.Triple (Keeps w₀) (newDependencies E t deps)
      (fun new w => Keeps w₀ w ∧ NewRows E.digests t deps new) fun _ => True := by
  refine Hoare.Triple.pre (Hoare.Triple.mapM _
    (fun done new w => Keeps w₀ w ∧ NewRows E.digests t done new)
    fun done dep rest new _ => Hoare.Triple.of_and fun h => ?_) fun w hw => ⟨hw, .nil⟩
  refine Hoare.Triple.bind (maybeGetPackageIdByName_triple hC dep.1)
    fun dst => Hoare.Triple.of_and fun _ => ?_
  refine Hoare.Triple.pure fun w hw => ⟨hw, ?_⟩
  exact List.rel_append h (.cons ⟨rfl, rfl⟩ .nil)

/-- Picking one type out of the ids picks the rows of that type. -/
theorem forall₂_idsOf {R : NewDependency × DependencyType → ℤ → Prop}
    {new : List (NewDependency × DependencyType)} {ids : List ℤ} (h : List.Forall₂ R new ids)
    (t : DependencyType) :
    List.Forall₂ (fun id e => R e id) (idsOf t ids (new.map Prod.snd)) (new.filter (·.2 = t)) := by
  induction h with
  | nil => exact .nil
  | cons hhead _ ih =>
    rename_i e id new ids _
    rw [idsOf] at ih
    rw [idsOf, List.map_cons, List.zip_cons_cons]
    by_cases ht : e.2 = t
    · rw [List.filter_cons_of_pos (by simpa using ht), List.filter_cons_of_pos (by simpa using ht)]
      exact .cons hhead ih
    · rw [List.filter_cons_of_neg (by simpa using ht), List.filter_cons_of_neg (by simpa using ht)]
      exact ih

theorem NewRows.filter {D : Digests} {t : DependencyType} {deps : List (String × Spec)}
    {new : List (NewDependency × DependencyType)} (h : NewRows D t deps new) (t' : DependencyType) :
    new.filter (·.2 = t') = if t = t' then new else [] := by
  induction h with
  | nil => simp
  | cons hhead _ ih =>
    rw [List.filter_cons, ih, hhead.2]
    by_cases ht : t = t'
    · simp [ht]
    · simp [ht]

/-- Two lists that stand for the same list stand for each other. -/
theorem forall₂_common {α β γ : Type} {R : α → β → Prop} {S : γ → β → Prop} {T : α → γ → Prop}
    (hT : ∀ a b c, R a b → S c b → T a c) {as : List α} {bs : List β} {cs : List γ}
    (hR : List.Forall₂ R as bs) (hS : List.Forall₂ S cs bs) : List.Forall₂ T as cs := by
  induction hR generalizing cs with
  | nil =>
    cases hS
    exact .nil
  | cons hhead _ ih =>
    cases hS with
    | cons hhead' htail => exact .cons (hT _ _ _ hhead hhead') (ih htail)

/-- The row of an inserted version is found by its key; the other tables are as before. -/
theorem insertNewVersion_found {F : Panic → Prop} (hF : ∀ p, F p) (new : NewVersion) (db : Db) :
    Hoare.Triple (fun w : World C => w.conn = db) (insertNewVersion new)
      (fun _ w => w.conn.packages = db.packages ∧ w.conn.dependencies = db.dependencies ∧
        ∃ row, Rows.find versionKey w.conn.versions.rows (new.packageId, new.semver) = some row ∧
          row.toNewVersion = new) F := by
  rintro w rfl
  have hquery := insertNewVersion_query new w.conn
  rw [insertNewVersion, Hoare.bind_apply, query]
  cases hrun : Versions.insertNewVersion new w.conn with
  | error e => exact hF e
  | ok r =>
    rw [hrun] at hquery
    obtain ⟨id, db'⟩ := r
    obtain ⟨rfl, hnone, rfl⟩ := hquery
    refine ⟨rfl, rfl, { new with id := w.conn.versions.nextId }, ?_, rfl⟩
    rw [versionIdOf, Option.map_eq_none_iff] at hnone
    change Rows.find versionKey (w.conn.versions.rows ++ [_]) _ = _
    rw [Rows.find_append_singleton, hnone, Option.none_or, if_pos rfl]

theorem createVersion_stores (hC : C.Lawful) (hw₀ : w₀.Inv) (package : String) (version : Semver)
    (data : VersionOnlyPackument) (seq diffEntryId : ℤ) :
    Hoare.Triple (Keeps w₀) (createVersion E package version data seq diffEntryId)
      (fun _ w => StoresVersion E.digests w.conn package version data) fun _ => True := by
  refine Hoare.Triple.bind (preserves_guardOr _ _) fun _ => ?_
  refine Hoare.Triple.bind (preserves_guardOr _ _) fun _ => ?_
  refine Hoare.Triple.bind (preserves_guardOr _ _) fun _ => ?_
  refine Hoare.Triple.bind (preserves_guardOr _ _) fun _ => ?_
  refine Hoare.Triple.bind (getPackageIdByName_triple hC fun _ => trivial)
    fun packageId => Hoare.Triple.of_and fun hid => ?_
  refine Hoare.Triple.bind (newDependencies_rows E hC _ _)
    fun prod => Hoare.Triple.of_and fun hprod => ?_
  refine Hoare.Triple.bind (newDependencies_rows E hC _ _)
    fun dev => Hoare.Triple.of_and fun hdev => ?_
  refine Hoare.Triple.bind (newDependencies_rows E hC _ _)
    fun peer => Hoare.Triple.of_and fun hpeer => ?_
  refine Hoare.Triple.bind (newDependencies_rows E hC _ _)
    fun optional => Hoare.Triple.of_and fun hoptional => ?_
  have htype (t : DependencyType) : NewRows E.digests t (dependenciesOf data t)
      ((prod ++ dev ++ peer ++ optional).filter (·.2 = t)) := by
    rw [List.filter_append, List.filter_append, List.filter_append, hprod.filter, hdev.filter,
      hpeer.filter, hoptional.filter]
    cases t with
    | prod => simpa [dependenciesOf] using hprod
    | dev => simpa [dependenciesOf] using hdev
    | peer => simpa [dependenciesOf] using hpeer
    | optional => simpa [dependenciesOf] using hoptional
  generalize prod ++ dev ++ peer ++ optional = new at htype ⊢
  have hinsert := insertOrIncDependencies_triple hC.dependencyStates w₀ (p := True) [] [] new.unzip.1
  refine Hoare.Triple.bind (hinsert.conseq (fun w hw => DepsApplied.nil hw hw₀)
    (fun _ _ hw => hw) fun _ _ => trivial) fun ids => ?_
  intro w hw
  rw [List.nil_append, List.nil_append] at hw
  refine (insertNewVersion_found (fun _ => trivial) _ w.conn).post (fun _ w' hw' => ?_) w rfl
  obtain ⟨hpackages, hdependencies, row, hfind, hrow⟩ := hw'
  have hpackage : packageIdOf w'.conn package = some packageId := by
    rw [packageIdOf, hpackages, hw.packages]
    exact hid
  refine ⟨packageId, row, hpackage, hfind, fun t => ?_⟩
  have hfound : List.Forall₂ (fun e id => ∃ d ∈ w'.conn.dependencies.rows, d.id = id ∧
      digest d = e.1.md5digestWithVersion) new ids := by
    rw [List.forall₂_iff_zip]
    have hlength := hw.length
    rw [List.unzip_eq_map, List.length_map] at hlength
    refine ⟨hlength, fun {e id} he => ?_⟩
    have hmem : (e.1, id) ∈ new.unzip.1.zip ids := by
      rw [List.unzip_eq_map, List.zip_map_left]
      exact List.mem_map.mpr ⟨(e, id), he, rfl⟩
    obtain ⟨d, hd, hdigest, hdid⟩ := hw.found _ hmem
    exact ⟨d, hdependencies ▸ hd, hdid, hdigest⟩
  have hids : row.dependencies t = idsOf t ids (new.map Prod.snd) := by
    rw [hrow, List.unzip_eq_map]
    cases t <;> rfl
  rw [hids]
  refine forall₂_common (fun id e dep hrefers hnew => ?_) (forall₂_idsOf hfound t) (htype t)
  obtain ⟨d, hd, hdid, hdigest⟩ := hrefers
  exact ⟨d, hd, hdid, hdigest.trans hnew.1⟩

end Creation

section Run

/-- The entries that have been processed, with flushes and new starts of the builder in between. -/
inductive Replay : List DiffLogEntry → World C → Prop where
  | start : Replay [] (uncached C .empty)
  | entry {entries : List DiffLogEntry} {w w' : World C} {e : DiffLogEntry} (h : Replay entries w)
    (hrun : processEntry E e w = .ok ((), w')) : Replay (entries ++ [e]) w'
  | flush {entries : List DiffLogEntry} {w w' : World C} (h : Replay entries w)
    (hrun : flushCaches w = .ok ((), w')) : Replay entries w'
  | restart {entries : List DiffLogEntry} {w : World C} (h : Replay entries w) :
    Replay entries (uncached C w.conn)

/-- What the entries have left in the tables. -/
structure Stored (entries : List DiffLogEntry) (w : World C) : Prop where
  inv : w.Inv
  rows : ∀ d ∈ w.conn.dependencies.rows,
    ∃ dep, CreatedDep entries dep ∧ IsRowOf E.digests dep d.toNewDependency
  versions : ∀ e ∈ entries, ∀ v data, e.instr = .createVersion v data →
    StoresVersion E.digests w.conn e.packageName v data

theorem CreatedDep.append_left {entries entries' : List DiffLogEntry} {dep : String × Spec}
    (h : CreatedDep entries dep) : CreatedDep (entries ++ entries') dep := by
  obtain ⟨e, he, hdep⟩ := h
  exact ⟨e, List.mem_append_left _ he, hdep⟩

theorem CreatedDep.append_right {entries entries' : List DiffLogEntry} {dep : String × Spec}
    (h : CreatedDep entries' dep) : CreatedDep (entries ++ entries') dep := by
  obtain ⟨e, he, hdep⟩ := h
  exact ⟨e, List.mem_append_right _ he, hdep⟩

/-- The row of a version keeps its arrays, and the rows that they refer to keep their keys. -/
theorem StoresVersion.mono {D : Digests} {P : String × Spec → Prop} {w₀ w : World C}
    {name : String} {v : Semver} {data : VersionOnlyPackument}
    (h : StoresVersion D w₀.conn name v data) (hw₀ : w₀.Inv) (hgrows : Grows w₀ w)
    (hfrom : StoredFrom D P w₀.conn w.conn) : StoresVersion D w.conn name v data := by
  obtain ⟨packageId, row, hid, hfind, hdeps⟩ := h
  have hversion : versionIdOf w₀.conn (packageId, v) = some row.id := by
    rw [versionIdOf, hfind, Option.map_some]
  obtain ⟨row', hfind', hrowid⟩ := Option.map_eq_some_iff.mp (hgrows.versions _ _ hversion)
  have hmem := Rows.mem_of_find hfind
  have hsame : row'.dependencies = row.dependencies := by
    rcases hfrom.versions row' (Rows.mem_of_find hfind') with hnew | ⟨v₀, hv₀, hrow⟩
    · have hlt := hw₀.versions.bound row hmem
      omega
    · have hv₀id : v₀.id = row.id := (congrArg Prod.fst hrow).symm.trans hrowid
      obtain rfl : v₀ = row := List.inj_on_of_nodup_map hw₀.versions.nodup hv₀ hmem hv₀id
      exact congrArg (fun r => r.2.2) hrow
  refine ⟨packageId, row', hgrows.packages _ _ hid, hfind', fun t => ?_⟩
  rw [hsame]
  refine (hdeps t).imp fun id dep hrefers => ?_
  obtain ⟨d, hd, hdid, hdigest⟩ := hrefers
  obtain ⟨d', hd', hdigest', hdid'⟩ := hgrows.dependencies d hd
  exact ⟨d', hd', hdid'.trans hdid, hdigest'.trans hdigest⟩

variable {E} {entries : List DiffLogEntry} {w w' : World C}

theorem Stored.storedFrom (h : Stored E entries w) :
    StoredFrom E.digests (CreatedDep entries) w.conn w.conn :=
  ⟨h.rows, le_rfl, fun v hv => .inr ⟨v, hv, rfl⟩⟩

theorem Stored.entry (hC : C.Lawful) (h : Stored E entries w) {e : DiffLogEntry}
    (hrun : processEntry E e w = .ok ((), w')) : Stored E (entries ++ [e]) w' := by
  have heffect := ((processEntry_triple hC E h.inv e).of_ok h.inv.keeps hrun).1.effect
  have hstart : StoredFrom E.digests (CreatedDep (entries ++ [e])) w.conn w.conn :=
    { h.storedFrom with
      dependencies := fun d hd => by
        obtain ⟨dep, hdep, hrow⟩ := h.rows d hd
        exact ⟨dep, hdep.append_left, hrow⟩ }
  have hfrom := (storedFrom_processEntry E e fun _ => CreatedDep.append_right).of_ok hstart hrun
  refine ⟨heffect.inv, hfrom.dependencies, fun e' he' v data hinstr => ?_⟩
  rcases List.mem_append.mp he' with he' | he'
  · exact (h.versions e' he' v data hinstr).mono h.inv heffect.grows hfrom
  · obtain rfl := List.mem_singleton.mp he'
    obtain ⟨id, seq, name, instr⟩ := e'
    obtain rfl : instr = .createVersion v data := hinstr
    exact (createVersion_stores E hC h.inv name v data seq id).of_ok h.inv.keeps hrun

/-- A flush writes counters alone. -/
theorem Stored.flush (h : Stored E entries w) (hrun : flushCaches w = .ok ((), w')) :
    Stored E entries w' := by
  obtain ⟨w₁, hflush, hflushed⟩ := flushCaches_spec h.inv.deps
  cases hflush.symm.trans hrun
  have hfrom := (onConn_flushCaches storedFrom_keepsCounts).of_ok h.storedFrom hrun
  have hkept {d : Dependency} (hd : d ∈ w.conn.dependencies.rows) :=
    exists_row_of_fixed (hflushed.fixed.trans (List.append_nil _).symm) hd
  have hdepsInv := hflushed.inv
  obtain ⟨deps, rfl⟩ := hflushed.frame
  refine ⟨?_, hfrom.dependencies, fun e he v data hinstr =>
    (h.versions e he v data hinstr).mono h.inv ⟨fun _ _ hid => hid, fun _ _ hid => hid, ?_⟩ hfrom⟩
  · exact
      { deps := hdepsInv
        packages := h.inv.packages
        versions := h.inv.versions
        packageIds := h.inv.packageIds
        packageData := h.inv.packageData
        versionIds := h.inv.versionIds
        versionDeps v hv t i hi := by
          obtain ⟨d, hd, rfl⟩ := h.inv.versionDeps v hv t i hi
          obtain ⟨d', hd', -, hid⟩ := hkept hd
          exact ⟨d', hd', hid⟩ }
  · intro d hd
    exact hkept hd

theorem World.Inv.restart (hC : C.Lawful) (h : w.Inv) : (uncached C w.conn).Inv where
  deps := uncached_depsInv hC.dependencyStates h.deps.identity h.deps.digests
  packages := h.packages
  versions := h.versions
  packageIds name id hentry := by
    rw [World.packageIdEntry, uncached, new, hC.packageId.peek_new] at hentry
    cases hentry
  packageData name p hentry := by
    rw [World.packageDataEntry, uncached, new, hC.packageData.peek_new] at hentry
    cases hentry
  versionIds key id hentry := by
    rw [World.versionIdEntry, uncached, new, hC.versionId.peek_new] at hentry
    cases hentry
  versionDeps := h.versionDeps

theorem Replay.stored (hC : C.Lawful) (h : Replay E entries w) : Stored E entries w := by
  induction h with
  | start => exact ⟨uncached_inv hC, by simp [uncached, Db.empty, Table.empty], by simp⟩
  | entry _ hrun ih => exact ih.entry hC hrun
  | flush _ hrun ih => exact ih.flush hrun
  | restart _ ih => exact ⟨ih.inv.restart hC, ih.rows, ih.versions⟩

end Run

end NpmFollower.RelationalDbBuilder
