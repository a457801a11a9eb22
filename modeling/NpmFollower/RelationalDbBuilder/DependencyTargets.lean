import NpmFollower.RelationalDbBuilder.PackageWrites
import NpmFollower.RelationalDbBuilder.UnchangedDependencies

/-! # The targets of dependencies

A row of dependencies refers to the package of its name as soon as there is one.
A package that is created finds rows without a target, and its patch sets them;
until then the name waits. A row that is inserted has what the caches answer, and
they answer what the table does.
-/

namespace NpmFollower.RelationalDbBuilder

open Std PostgresDb RelationalDbAccessor EntryProcessor

variable {C : LruCaches}

/-- The target is the package of the name, or missing while the name waits for its patch. -/
structure HasTarget (D : Digests) (waiting : String → Prop) (db : Db) (new : NewDependency) :
    Prop where
  digest : new.md5digest = D.sha256 new.dstPackageName
  target : new.dstPackageIdIfExists = packageIdOf db new.dstPackageName ∨
    new.dstPackageIdIfExists = none ∧ waiting new.dstPackageName

/-- The packages are those of `db₀`, and all rows of dependencies have their targets among them. -/
structure TargetsIn (D : Digests) (waiting : String → Prop) (db₀ db : Db) : Prop where
  packages : db.packages = db₀.packages
  rows : ∀ d ∈ db.dependencies.rows, HasTarget D waiting db₀ d.toNewDependency

def Targets (D : Digests) (waiting : String → Prop) (db : Db) : Prop := TargetsIn D waiting db db

section Statements

variable {D : Digests} {waiting : String → Prop} {db₀ db : Db}

theorem packageIdOf_congr (h : db.packages = db₀.packages) (name : String) :
    packageIdOf db name = packageIdOf db₀ name := by
  rw [packageIdOf, packageIdOf, h]

theorem HasTarget.congr {new : NewDependency} (h : HasTarget D waiting db₀ new)
    (hid : packageIdOf db new.dstPackageName = packageIdOf db₀ new.dstPackageName) :
    HasTarget D waiting db new :=
  ⟨h.digest, by rw [hid]; exact h.target⟩

theorem HasTarget.mono {waiting' : String → Prop} {new : NewDependency}
    (h : HasTarget D waiting db new) (hw : ∀ name, waiting name → waiting' name) :
    HasTarget D waiting' db new :=
  ⟨h.digest, h.target.imp_right fun hnone => ⟨hnone.1, hw _ hnone.2⟩⟩

theorem TargetsIn.targets (h : TargetsIn D waiting db₀ db) : Targets D waiting db :=
  ⟨rfl, fun d hd => (h.rows d hd).congr (packageIdOf_congr h.packages _)⟩

theorem Targets.mono {waiting' : String → Prop} (h : Targets D waiting db)
    (hw : ∀ name, waiting name → waiting' name) : Targets D waiting' db :=
  ⟨rfl, fun d hd => (h.rows d hd).mono hw⟩

/-- Rows changed in other columns keep their targets. -/
theorem TargetsIn.mapDependencies (h : TargetsIn D waiting db₀ db) (f : Dependency → Dependency)
    (nextId : ℤ) (hf : ∀ d : Dependency, HasTarget D waiting db₀ d.toNewDependency →
      HasTarget D waiting db₀ (f d).toNewDependency) :
    TargetsIn D waiting db₀ { db with dependencies := ⟨db.dependencies.rows.map f, nextId⟩ } := by
  refine ⟨h.packages, fun d hd => ?_⟩
  obtain ⟨r, hr, rfl⟩ := List.mem_map.mp hd
  exact hf r (h.rows r hr)

theorem hasTarget_ite {p : Prop} [Decidable p] {d : Dependency} {counts : FreqCounts}
    (h : HasTarget D waiting db₀ d.toNewDependency) :
    HasTarget D waiting db₀ (if p then { d with counts } else d).toNewDependency := by
  split_ifs
  exacts [⟨h.digest, h.target⟩, h]

theorem targetsIn_keepsCounts : KeepsCounts (TargetsIn D waiting db₀) := by
  intro depId counts db hdb
  simp only [Dependencies.setDependencyCounts, Hoare.bind_apply, Hoare.get_apply, guardOr_apply]
  split_ifs
  · exact hdb.mapDependencies _ _ fun d hd => hasTarget_ite hd
  · trivial

/-- A row that is there already keeps its own target. -/
theorem targetsIn_insertDependencyIncCounts {new : NewDependency}
    (hnew : HasTarget D waiting db₀ new) :
    Hoare.Preserves (TargetsIn D waiting db₀) (Dependencies.insertDependencyIncCounts new) := by
  intro db hdb
  rw [insertDependencyIncCounts_eq]
  by_cases hnext : db.dependencies.nextId < 2 ^ 63
  · rw [if_pos hnext]
    cases Rows.find digest db.dependencies.rows new.md5digestWithVersion with
    | some row =>
      dsimp only
      cases row.counts.add new.counts with
      | some counts => exact hdb.mapDependencies _ _ fun d hd => hasTarget_ite hd
      | none => trivial
    | none =>
      dsimp only
      split_ifs
      · refine ⟨hdb.packages, fun d hd => ?_⟩
        rcases List.mem_append.mp hd with hd | hd
        · exact hdb.rows d hd
        · rw [List.mem_singleton.mp hd]
          exact hnew
      · trivial
  · rw [if_neg hnext]
    trivial

theorem targetsIn_insertNewVersion (new : NewVersion) :
    Hoare.Preserves (TargetsIn D waiting db₀) (Versions.insertNewVersion new) := by
  intro db hdb
  have hquery := insertNewVersion_query new db
  cases hrun : Versions.insertNewVersion new db with
  | error e => trivial
  | ok r =>
    rw [hrun] at hquery
    obtain ⟨id, db'⟩ := r
    obtain ⟨-, -, rfl⟩ := hquery
    exact ⟨hdb.packages, hdb.rows⟩

theorem targetsIn_setState (state : VersionStateType) (id seq diffEntryId : ℤ)
    (time : Option DateTime) :
    Hoare.Preserves (TargetsIn D waiting db₀) (Versions.setState state id seq diffEntryId time) := by
  intro db hdb
  simp only [Versions.setState, Versions.getVersionById, Hoare.bind_apply, Hoare.get_apply,
    expect_apply, Versions.updateWhereId, Hoare.modify_apply]
  cases Rows.find Version.id db.versions.rows id with
  | none => trivial
  | some row => exact ⟨hdb.packages, hdb.rows⟩

theorem targetsIn_setVersionExtraMetadata (id : ℤ) (data : Value) :
    Hoare.Preserves (TargetsIn D waiting db₀) (Versions.setVersionExtraMetadata id data) := by
  intro db hdb
  simp only [Versions.setVersionExtraMetadata, Hoare.bind_apply, Hoare.get_apply, guardOr_apply,
    Versions.updateWhereId, Hoare.modify_apply]
  split_ifs
  · exact ⟨hdb.packages, hdb.rows⟩
  · trivial

/-- A row that is counted again is a row with its target. -/
theorem targetsIn_keepsVersions (seq diffEntryId : ℤ) :
    KeepsVersions (TargetsIn D waiting db₀) (HasTarget D waiting db₀) seq diffEntryId where
  counts := targetsIn_keepsCounts
  rows db hdb d hd counts := ⟨(hdb.rows d hd).digest, (hdb.rows d hd).target⟩
  insert new hnew := targetsIn_insertDependencyIncCounts hnew
  setState state versionId := targetsIn_setState _ _ _ _ _
  setExtraMetadata versionId data := targetsIn_setVersionExtraMetadata _ _

/-- A name has no target before its package is inserted, and waits from then on. -/
theorem targets_insertNewPackage {new : NewPackage} (hnew : waiting new.name) :
    Hoare.Preserves (Targets D waiting) (Packages.insertNewPackage new) := by
  intro db hdb
  have hquery := insertNewPackage_query new db
  cases hrun : Packages.insertNewPackage new db with
  | error e => trivial
  | ok r =>
    rw [hrun] at hquery
    obtain ⟨row, db'⟩ := r
    obtain ⟨rfl, hnone, rfl⟩ := hquery
    set row : Package := { new with id := db.packages.nextId }
    have hid := packageIdOf_insert row (db.packages.nextId + 1) hnone
    refine ⟨rfl, fun d hd => ?_⟩
    have hrow := hdb.rows d hd
    by_cases hname : d.dstPackageName = row.name
    · have hmissing : d.dstPackageIdIfExists = none := by
        rcases hrow.target with htarget | htarget
        · rw [htarget, hname]
          exact hnone
        · exact htarget.1
      exact ⟨hrow.digest, .inr ⟨hmissing, hname ▸ hnew⟩⟩
    · exact hrow.congr (by rw [hid, if_neg hname])

theorem targets_updatePackage (id : ℤ) (diff : PackageUpdate) :
    Hoare.Preserves (Targets D waiting) (Packages.updatePackage id diff) := by
  intro db hdb
  simp only [Packages.updatePackage, Hoare.bind_apply, Hoare.get_apply, guardOr_apply]
  split_ifs
  · exact ⟨rfl, fun d hd => (hdb.rows d hd).congr (packageIdOf_update _ _ _ _)⟩
  · trivial

/-- The patch finds the row if it waits for the name. -/
theorem HasTarget.patch {name : String} {id : ℤ} (hid : packageIdOf db name = some id)
    {d : Dependency} (h : HasTarget D waiting db d.toNewDependency) :
    HasTarget D (fun name' => waiting name' ∧ name' ≠ name) db
      (if d.md5digest = D.sha256 name && d.dstPackageIdIfExists.isNone && d.dstPackageName = name then
        { d with dstPackageIdIfExists := some id } else d).toNewDependency := by
  split_ifs with hmissing
  · have hname : d.dstPackageName = name := by
      simp only [Bool.and_eq_true, decide_eq_true_eq] at hmissing
      exact hmissing.2
    exact ⟨h.digest, .inl (hname ▸ hid.symm)⟩
  · refine ⟨h.digest, h.target.imp_right fun hnone => ⟨hnone.1, hnone.2, fun hname => ?_⟩⟩
    exact hmissing (by simp [h.digest, hname, hnone.1])

theorem targets_updateDepsMissingPack {name : String} {id : ℤ} :
    Hoare.Triple (fun db => Targets D waiting db ∧ packageIdOf db name = some id)
      (Dependencies.updateDepsMissingPack D name id)
      (fun _ => Targets D fun name' => waiting name' ∧ name' ≠ name) fun _ => True := by
  rintro db ⟨hdb, hid⟩
  simp only [Dependencies.updateDepsMissingPack, Hoare.bind_apply, Hoare.get_apply, guardOr_apply]
  split_ifs
  · refine ⟨rfl, fun d hd => ?_⟩
    obtain ⟨r, hr, rfl⟩ := List.mem_map.mp hd
    exact ((hdb.rows r hr).patch hid).congr rfl
  · trivial

end Statements

section Entries

variable (hC : C.Lawful) (E : Env) (waiting : String → Prop) {db : Db}

include hC

/-- A new row has what the caches answer for its name. -/
theorem newDependencies_hasTarget (t : DependencyType) (deps : List (String × Spec)) :
    Hoare.Triple (Fits (C := C) db) (newDependencies E t deps)
      (fun new w => Fits db w ∧ ∀ e ∈ new, HasTarget E.digests waiting db e.1) fun _ => True := by
  refine Hoare.Triple.pre (Hoare.Triple.mapM _
    (fun _ (new : List (NewDependency × DependencyType)) (w : World C) => Fits db w ∧
      ∀ e ∈ new, HasTarget E.digests waiting db e.1)
    fun done dep rest new hdeps => Hoare.Triple.of_and fun hold => ?_) fun w hw => ⟨hw, by simp⟩
  refine Hoare.Triple.bind (maybeGetPackageIdByName_fits hC dep.1)
    fun dst => Hoare.Triple.of_and fun hdst => Hoare.Triple.pure fun w hw => ⟨hw, fun e he => ?_⟩
  rcases List.mem_append.mp he with he | he
  · exact hold e he
  · rw [List.mem_singleton.mp he]
    exact ⟨rfl, .inl hdst⟩

theorem createVersion_targets (hdb : Targets E.digests waiting db) (package : String)
    (version : Semver) (data : VersionOnlyPackument) (seq diffEntryId : ℤ) :
    Hoare.Triple (Fits (C := C) db) (createVersion E package version data seq diffEntryId)
      (fun _ => OnConn (TargetsIn E.digests waiting db)) fun _ => True := by
  have hpure {x : Run C Unit} (hx : Hoare.Preserves (Fits db) x) := hx
  refine Hoare.Triple.bind (hpure (preserves_guardOr _ _)) fun _ => ?_
  refine Hoare.Triple.bind (hpure (preserves_guardOr _ _)) fun _ => ?_
  refine Hoare.Triple.bind (hpure (preserves_guardOr _ _)) fun _ => ?_
  refine Hoare.Triple.bind (hpure (preserves_guardOr _ _)) fun _ => ?_
  refine Hoare.Triple.bind (getPackageIdByName_fits hC trivial)
    fun packageId => Hoare.Triple.of_and fun _ => ?_
  refine Hoare.Triple.bind (newDependencies_hasTarget hC E waiting .prod _)
    fun prod => Hoare.Triple.of_and fun hprod => ?_
  refine Hoare.Triple.bind (newDependencies_hasTarget hC E waiting .dev _)
    fun dev => Hoare.Triple.of_and fun hdev => ?_
  refine Hoare.Triple.bind (newDependencies_hasTarget hC E waiting .peer _)
    fun peer => Hoare.Triple.of_and fun hpeer => ?_
  refine Hoare.Triple.bind (newDependencies_hasTarget hC E waiting .optional _)
    fun optional => Hoare.Triple.of_and fun hoptional => ?_
  have hall : ∀ e ∈ prod ++ dev ++ peer ++ optional, HasTarget E.digests waiting db e.1 := by
    intro e he
    simp only [List.mem_append] at he
    rcases he with ((he | he) | he) | he
    exacts [hprod e he, hdev e he, hpeer e he, hoptional e he]
  have hstart : ∀ w : World C, Fits db w → OnConn (TargetsIn E.digests waiting db) w := by
    intro w hw
    rw [OnConn, hw.conn]
    exact hdb
  generalize prod ++ dev ++ peer ++ optional = new at hall ⊢
  refine Hoare.Triple.pre ?_ hstart
  refine Hoare.Preserves.bind (onConn_insertOrIncDependencies targetsIn_keepsCounts fun dep hdep => ?_)
    fun ids => ?_
  · rw [List.unzip_eq_map] at hdep
    obtain ⟨e, he, rfl⟩ := List.mem_map.mp hdep
    exact targetsIn_insertDependencyIncCounts (hall e he)
  · exact Hoare.Preserves.bind (onConn_query (targetsIn_insertNewVersion _)) fun _ => onConn_update _

theorem patchPackageRefs_targets (hdb : Targets E.digests waiting db) (package : String) :
    Hoare.Triple (Fits (C := C) db) (patchPackageRefs E package)
      (fun _ => OnConn (Targets E.digests fun name => waiting name ∧ name ≠ package))
      fun _ => True := by
  refine Hoare.Triple.bind (getPackageIdByName_fits hC trivial)
    fun id => Hoare.Triple.of_and fun hrow => ?_
  refine Hoare.Triple.bind (putPackageId_fits hC hrow) fun _ => ?_
  refine Hoare.Triple.bind (promotePackageData_fits hC package) fun _ => ?_
  refine (onConn_query_triple targets_updateDepsMissingPack).pre fun w hw => ?_
  rw [OnConn, hw.conn]
  exact ⟨hdb, hrow⟩

/-- The names that wait after an entry. -/
def waitingAfter (waiting : String → Prop) (e : DiffLogEntry) (name : String) : Prop :=
  match e.instr with
  | .createPackage _ => waiting name ∨ name = e.packageName
  | .patchPackageReferences => waiting name ∧ name ≠ e.packageName
  | _ => waiting name

theorem processEntry_targets {w w' : World C} (hw : RowsInv w) {e : DiffLogEntry}
    (h : Targets E.digests waiting w.conn) (hrun : processEntry E e w = .ok ((), w')) :
    Targets E.digests (waitingAfter waiting e) w'.conn := by
  obtain ⟨id, seq, name, instr⟩ := e
  cases instr with
  | createPackage data =>
    have hinsert : ∀ new, newPackage E name seq id data = .ok new →
        Hoare.Preserves (Targets E.digests fun name' => waiting name' ∨ name' = name)
          (Packages.insertNewPackage new) := by
      intro new hnew
      have hname := newPackage_eq E name seq id data
      rw [hnew] at hname
      exact targets_insertNewPackage (.inr hname)
    exact (onConn_createPackage E name data seq id hinsert).of_ok (h.mono fun _ => .inl) hrun
  | updatePackage data =>
    exact (onConn_updatePackage E name data seq id targets_updatePackage).of_ok h hrun
  | patchPackageReferences => exact (patchPackageRefs_targets hC E waiting h name).of_ok hw.fits hrun
  | createVersion v data =>
    exact ((createVersion_targets hC E waiting h name v data seq id).of_ok hw.fits hrun).targets
  | updateVersion v data =>
    exact ((onConn_updateVersion (targetsIn_keepsVersions seq id) name v data).of_ok h hrun).targets
  | deleteVersion v =>
    exact ((onConn_deleteVersion (targetsIn_keepsVersions seq id) name v).of_ok h hrun).targets

end Entries

section Runs

/-- The names that wait after the entries. -/
def waitingIn (entries : List DiffLogEntry) : String → Prop :=
  entries.foldl waitingAfter fun _ => False

/-- A name waits because of a creation without a patch behind it. -/
theorem exists_creation {entries : List DiffLogEntry} {name : String}
    (h : waitingIn entries name) : ∃ before e after, entries = before ++ e :: after ∧
      e.packageName = name ∧ (∃ data, e.instr = .createPackage data) ∧
      ∀ e' ∈ after, e'.packageName = name → e'.instr ≠ .patchPackageReferences := by
  induction entries using List.reverseRecOn with
  | nil => exact h.elim
  | append_singleton entries e ih =>
    have hlater (hwaits : waitingIn entries name)
        (hpatch : e.packageName = name → e.instr ≠ .patchPackageReferences) :
        ∃ before e₀ after, entries ++ [e] = before ++ e₀ :: after ∧ e₀.packageName = name ∧
          (∃ data, e₀.instr = .createPackage data) ∧
          ∀ e' ∈ after, e'.packageName = name → e'.instr ≠ .patchPackageReferences := by
      obtain ⟨before, e₀, after, rfl, hname, hcreates, hafter⟩ := ih hwaits
      refine ⟨before, e₀, after ++ [e], by simp, hname, hcreates, fun e' he' => ?_⟩
      rcases List.mem_append.mp he' with he' | he'
      · exact hafter e' he'
      · rw [List.mem_singleton.mp he']
        exact hpatch
    rw [waitingIn, List.foldl_append] at h
    change waitingAfter (waitingIn entries) e name at h
    unfold waitingAfter at h
    cases hinstr : e.instr with
    | createPackage data =>
      rw [hinstr] at h
      rcases h with hwaits | hname
      · exact hlater hwaits fun _ => by simp [hinstr]
      · exact ⟨entries, e, [], rfl, hname.symm, ⟨data, hinstr⟩, by simp⟩
    | patchPackageReferences =>
      rw [hinstr] at h
      exact hlater h.1 fun hname => absurd hname.symm h.2
    | createVersion v data =>
      rw [hinstr] at h
      exact hlater h fun _ => by simp [hinstr]
    | updatePackage data =>
      rw [hinstr] at h
      exact hlater h fun _ => by simp [hinstr]
    | updateVersion v data =>
      rw [hinstr] at h
      exact hlater h fun _ => by simp [hinstr]
    | deleteVersion v =>
      rw [hinstr] at h
      exact hlater h fun _ => by simp [hinstr]

/-- What a seq that creates a package says of this package ends with its patch. -/
def PatchesCreations (log : List DiffLogEntry) : Prop :=
  ∀ e after, (e :: after) <:+ log → (∃ data, e.instr = .createPackage data) →
    ∃ last, (after.filter fun e' => e'.packageName = e.packageName ∧ e'.seq = e.seq).getLast? =
      some last ∧ last.instr = .patchPackageReferences

/-- Behind whole seqs no name waits. -/
theorem not_waitingIn {done rest : List DiffLogEntry} (hlog : PatchesCreations (done ++ rest))
    (hseqs : ∀ e ∈ done, ∀ e' ∈ rest, e.seq ≠ e'.seq) (name : String) : ¬waitingIn done name := by
  intro hwaits
  obtain ⟨before, e, after, rfl, hname, hcreates, hafter⟩ := exists_creation hwaits
  have hsuffix : (e :: (after ++ rest)) <:+ (before ++ e :: after) ++ rest :=
    ⟨before, by simp⟩
  obtain ⟨last, hlast, hpatch⟩ := hlog e _ hsuffix hcreates
  obtain ⟨hmem, hsame⟩ := List.mem_filter.mp (List.mem_of_getLast? hlast)
  have hsame : last.packageName = e.packageName ∧ last.seq = e.seq := by simpa using hsame
  rcases List.mem_append.mp hmem with hmem | hmem
  · exact hafter last hmem (hsame.1.trans hname) hpatch
  · exact hseqs e (by simp) last hmem hsame.2.symm

variable {E : Env} {entries : List DiffLogEntry} {w : World C}

theorem Replay.rowsInv_targets (hC : C.Lawful) (h : Replay E entries w) :
    RowsInv w ∧ Targets E.digests (waitingIn entries) w.conn := by
  induction h with
  | start =>
    exact ⟨rowsInv_uncached hC constraints_empty, rfl, by simp [uncached, Db.empty, Table.empty]⟩
  | entry _ hrun ih =>
    refine ⟨(preserves_processEntry E hC _).of_ok ih.1 hrun, ?_⟩
    rw [waitingIn, List.foldl_append]
    exact processEntry_targets hC E _ ih.1 ih.2 hrun
  | flush _ hrun ih =>
    exact ⟨preserves_flushCaches.of_ok ih.1 hrun,
      ((onConn_flushCaches targetsIn_keepsCounts).of_ok ih.2 hrun).targets⟩
  | restart _ ih => exact ⟨rowsInv_uncached hC ih.1.constraints, ih.2⟩

/-- A row refers to a package just where the package of its name is there. -/
def TargetsResolved (db : Db) : Prop :=
  ∀ d ∈ db.dependencies.rows, ∀ i, d.dstPackageIdIfExists = some i ↔
    ∃ p ∈ db.packages.rows, p.name = d.dstPackageName ∧ p.id = i

/-- After whole seqs of a log that patches what it creates, every target is resolved. -/
theorem targetsResolved_of_replay (hC : C.Lawful) {done rest : List DiffLogEntry}
    (hlog : PatchesCreations (done ++ rest)) (hseqs : ∀ e ∈ done, ∀ e' ∈ rest, e.seq ≠ e'.seq)
    (hreplay : Replay E done w) : TargetsResolved w.conn := by
  obtain ⟨hinv, htargets⟩ := hreplay.rowsInv_targets hC
  intro d hd i
  have htarget : d.dstPackageIdIfExists = packageIdOf w.conn d.dstPackageName := by
    rcases (htargets.rows d hd).target with htarget | ⟨-, hwaits⟩
    · exact htarget
    · exact absurd hwaits (not_waitingIn hlog hseqs _)
  rw [htarget]
  constructor
  · exact exists_package_of_packageIdOf
  · rintro ⟨p, hp, hname, rfl⟩
    have hfind : Rows.find (fun p => p.name) w.conn.packages.rows p.name = some p :=
      Rows.find_of_mem hinv.constraints.names hp
    rw [packageIdOf, ← hname, hfind, Option.map_some]

/-- Two packages, of which the first has a version that depends on both. -/
def targetEntries : List DiffLogEntry :=
  [⟨1, 1, "p", .createPackage .deleted⟩,
    ⟨2, 1, "p", .createVersion ⟨1, 0, 0, [], []⟩ { sampleVersion with
      prodDependencies := [("p", numberSpec 1), ("q", numberSpec 2)] }⟩,
    ⟨3, 1, "p", .patchPackageReferences⟩, ⟨4, 2, "q", .createPackage .deleted⟩,
    ⟨5, 2, "q", .patchPackageReferences⟩]

/-- The targets of the rows at the end. -/
def targetsAfter (C : LruCaches) (entries : List DiffLogEntry) : Option (List (Option ℤ)) :=
  (processEntries numberEnv entries (uncached C .empty)).toOption.map
    fun r => r.2.conn.dependencies.rows.map (·.dstPackageIdIfExists)

theorem targetsResolved_of_replay_twoSeqs : ∃ w : World (.ofCapacity 1),
    Replay numberEnv targetEntries w ∧ TargetsResolved w.conn ∧
      w.conn.dependencies.rows.map (·.dstPackageIdIfExists) = [some 1, some 2] := by
  have htargets : targetsAfter (.ofCapacity 1) targetEntries = some [some 1, some 2] := by
    decide +kernel
  obtain ⟨⟨_, w⟩, hrun, hrows⟩ := Hoare.exists_ok_of_toOption htargets
  have hreplay := Replay.start.of_processEntries hrun
  have hlog : PatchesCreations (targetEntries ++ []) := by
    rintro e after hsuffix ⟨data, hinstr⟩
    simp only [targetEntries, List.append_nil, List.suffix_cons_iff, List.suffix_nil,
      List.cons.injEq, reduceCtorEq, or_false] at hsuffix
    rcases hsuffix with ⟨rfl, rfl⟩ | ⟨rfl, rfl⟩ | ⟨rfl, rfl⟩ | ⟨rfl, rfl⟩ | ⟨rfl, rfl⟩
    · exact ⟨_, rfl, rfl⟩
    · cases hinstr
    · cases hinstr
    · exact ⟨_, rfl, rfl⟩
    · cases hinstr
  exact ⟨w, hreplay, targetsResolved_of_replay (LruCaches.ofCapacity_lawful 1) hlog (by simp)
    hreplay, hrows⟩

end Runs

end NpmFollower.RelationalDbBuilder
