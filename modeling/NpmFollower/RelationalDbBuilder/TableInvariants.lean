import NpmFollower.RelationalDbBuilder.RowUpdates

/-! # Invariants of the tables

A property of the tables that the statements preserve is preserved by the
accessor and by the entries, whatever the caches answer.
-/

namespace NpmFollower.RelationalDbBuilder

open Std PostgresDb RelationalDbAccessor EntryProcessor

variable {C : LruCaches} {J : Db → Prop}

/-- The dependencies of one type in the data of a version. -/
def dependenciesOf (data : VersionOnlyPackument) : DependencyType → List (String × Spec)
  | .prod => data.prodDependencies
  | .dev => data.devDependencies
  | .peer => data.peerDependencies
  | .optional => data.optionalDependencies

/-- A property of the tables, in a world with caches. -/
abbrev OnConn (J : Db → Prop) : World C → Prop := fun w => J w.conn

section Accessor

theorem onConn_update (f : RelationalDbAccessor C → RelationalDbAccessor C) :
    Hoare.Preserves (OnConn J) (update f) :=
  Hoare.Preserves.modifyState fun _ h => h

theorem onConn_query_triple {α : Type} {q : Query α} {P : Db → Prop} {Q : α → Db → Prop}
    {F : Panic → Prop} (h : Hoare.Triple P q Q F) :
    Hoare.Triple (OnConn (C := C) P) (query q) (fun a => OnConn (Q a)) F := by
  intro w hw
  have hrun := h w.conn hw
  rw [query]
  cases hq : q w.conn with
  | error e =>
    rw [hq] at hrun
    exact hrun
  | ok r =>
    rw [hq] at hrun
    exact hrun

theorem onConn_query {α : Type} {q : Query α} (h : Hoare.Preserves J q) :
    Hoare.Preserves (OnConn (C := C) J) (query q) :=
  onConn_query_triple h

theorem preserves_read {ρ : Type} {p : Panic} {find : Db → Option ρ} :
    Hoare.Preserves J (do expect p (find (← get)) : Query ρ) := by
  intro db hdb
  rw [Hoare.bind_apply, Hoare.get_apply]
  dsimp only
  rw [expect_apply]
  cases find db with
  | none => trivial
  | some r => exact hdb

theorem onConn_cachedPackageId (name : String) :
    Hoare.Preserves (OnConn (C := C) J) (cachedPackageId name) :=
  Hoare.Preserves.bind .get fun _ => Hoare.Preserves.bind (onConn_update _) fun _ => .pure

theorem onConn_cachedPackageData (name : String) :
    Hoare.Preserves (OnConn (C := C) J) (cachedPackageData name) :=
  Hoare.Preserves.bind .get fun _ => Hoare.Preserves.bind (onConn_update _) fun _ => .pure

theorem onConn_cachedVersionId (packageId : ℤ) (v : Semver) :
    Hoare.Preserves (OnConn (C := C) J) (cachedVersionId packageId v) :=
  Hoare.Preserves.bind .get fun _ => Hoare.Preserves.bind (onConn_update _) fun _ => .pure

theorem onConn_popPackageData (name : String) :
    Hoare.Preserves (OnConn (C := C) J) (popPackageData name) :=
  Hoare.Preserves.bind .get fun _ => Hoare.Preserves.bind (onConn_update _) fun _ => .pure

theorem onConn_getPackageByName (E : Env) (name : String) :
    Hoare.Preserves (OnConn (C := C) J) (getPackageByName E name) := by
  refine Hoare.Preserves.bind (onConn_cachedPackageData name) fun found => ?_
  cases found with
  | some package => exact Hoare.Preserves.bind (onConn_update _) fun _ => .pure
  | none =>
    refine Hoare.Preserves.bind (onConn_cachedPackageId name) fun found => ?_
    cases found with
    | some packageId =>
      refine Hoare.Preserves.bind (preserves_expect _ _) fun _ => ?_
      refine Hoare.Preserves.bind (onConn_query preserves_read) fun _ => ?_
      exact Hoare.Preserves.bind (onConn_update _) fun _ => .pure
    | none =>
      refine Hoare.Preserves.bind (onConn_query preserves_read) fun _ => ?_
      refine Hoare.Preserves.bind (onConn_update _) fun _ => ?_
      exact Hoare.Preserves.bind (onConn_update _) fun _ => .pure

theorem onConn_maybeGetPackageIdByName (name : String) :
    Hoare.Preserves (OnConn (C := C) J) (maybeGetPackageIdByName name) := by
  refine Hoare.Preserves.bind (onConn_cachedPackageId name) fun found => ?_
  cases found with
  | some packageId => exact .pure
  | none =>
    have hread : Hoare.Preserves J (Packages.maybeGetPackageIdByName name) := fun db hdb => hdb
    refine Hoare.Preserves.bind (onConn_query hread) fun _ => ?_
    exact Hoare.Preserves.bind (onConn_update _) fun _ => .pure

theorem onConn_getPackageIdByName (name : String) :
    Hoare.Preserves (OnConn (C := C) J) (getPackageIdByName name) :=
  Hoare.Preserves.bind (onConn_maybeGetPackageIdByName name) fun _ => preserves_expect _ _

theorem onConn_getVersionIdBySemver (packageId : ℤ) (v : Semver) :
    Hoare.Preserves (OnConn (C := C) J) (getVersionIdBySemver packageId v) := by
  refine Hoare.Preserves.bind (onConn_cachedVersionId packageId v) fun found => ?_
  cases found with
  | some id => exact .pure
  | none =>
    have hread : Hoare.Preserves J (Versions.getVersionIdBySemver packageId v) := by
      intro db hdb
      rw [Versions.getVersionIdBySemver, Hoare.bind_apply, Hoare.get_apply]
      dsimp only
      rw [Hoare.bind_apply, expect_apply]
      cases Rows.find (fun row : Version => (row.packageId, row.semver)) db.versions.rows
        (packageId, v) with
      | none => trivial
      | some row => exact hdb
    refine Hoare.Preserves.bind (onConn_query hread) fun _ => ?_
    exact Hoare.Preserves.bind (onConn_update _) fun _ => .pure

/-- The statements that write a counter back preserve the property. -/
def KeepsCounts (J : Db → Prop) : Prop :=
  ∀ depId counts, Hoare.Preserves J (Dependencies.setDependencyCounts depId counts)

variable (hcounts : KeepsCounts J)

include hcounts

theorem onConn_flushEvicted (evicted : Option (String × DependencyState)) :
    Hoare.Preserves (OnConn (C := C) J) (flushEvicted evicted) := by
  cases evicted with
  | none => exact .pure
  | some e =>
    refine Hoare.Preserves.bind .get fun w => ?_
    split_ifs
    · exact Hoare.Preserves.bind (onConn_update _) fun _ => onConn_query (hcounts _ _)
    · exact .pure

theorem onConn_insertOrIncDependency {dep : NewDependency}
    (hinsert : Hoare.Preserves J (Dependencies.insertDependencyIncCounts dep)) :
    Hoare.Preserves (OnConn (C := C) J) (insertOrIncDependency dep) := by
  refine Hoare.Preserves.bind .get fun w => ?_
  split
  · refine Hoare.Preserves.bind (onConn_update _) fun _ => ?_
    refine Hoare.Preserves.bind (preserves_expect _ _) fun counts => ?_
    exact Hoare.Preserves.bind (onConn_update _) fun _ => .pure
  · refine Hoare.Preserves.bind (onConn_query hinsert) fun r => ?_
    refine Hoare.Preserves.bind .get fun w => ?_
    refine Hoare.Preserves.bind (onConn_update _) fun _ => ?_
    exact Hoare.Preserves.bind (onConn_flushEvicted hcounts _) fun _ => .pure

theorem onConn_insertOrIncDependencies {deps : List NewDependency}
    (hinsert : ∀ dep ∈ deps, Hoare.Preserves J (Dependencies.insertDependencyIncCounts dep)) :
    Hoare.Preserves (OnConn (C := C) J) (insertOrIncDependencies deps) := by
  refine Hoare.Triple.mapM deps (fun _ _ => OnConn J) fun done dep rest _ hdeps => ?_
  exact onConn_insertOrIncDependency hcounts (hinsert dep (by simp [hdeps]))

theorem onConn_flushCaches : Hoare.Preserves (OnConn (C := C) J) flushCaches := by
  refine Hoare.Preserves.bind .get fun w => ?_
  refine Hoare.Preserves.bind (Hoare.Preserves.forM fun hash => ?_) fun _ => onConn_update _
  refine Hoare.Preserves.bind .get fun w' => ?_
  refine Hoare.Preserves.bind (preserves_expect _ _) fun state => ?_
  exact onConn_query (hcounts _ _)

end Accessor

section Entries

variable (E : Env)

theorem createPackage_onConn {J' : Db → Prop} {F : Panic → Prop} (package : String)
    (data : PackageOnlyPackument) (seq diffEntryId : ℤ)
    (hinsert : ∀ new, newPackage E package seq diffEntryId data = .ok new →
      Hoare.Triple J (Packages.insertNewPackage new) (fun _ => J') F)
    (hpanic : ∀ p, newPackage E package seq diffEntryId data = .error p → F p) :
    Hoare.Triple (OnConn (C := C) J) (createPackage E package data seq diffEntryId)
      (fun _ => OnConn J') F := by
  rw [createPackage]
  cases hnew : newPackage E package seq diffEntryId data with
  | error p => exact Hoare.Triple.throw fun _ _ => hpanic p hnew
  | ok new =>
    change Hoare.Triple (OnConn (C := C) J) (insertNewPackage E new) _ _
    refine Hoare.Triple.bind (onConn_query_triple (hinsert new hnew)) fun _ => ?_
    exact Hoare.Triple.modifyState fun _ hw => hw

theorem onConn_createPackage (package : String) (data : PackageOnlyPackument) (seq diffEntryId : ℤ)
    (hinsert : ∀ new, newPackage E package seq diffEntryId data = .ok new →
      Hoare.Preserves J (Packages.insertNewPackage new)) :
    Hoare.Preserves (OnConn (C := C) J) (createPackage E package data seq diffEntryId) :=
  createPackage_onConn E package data seq diffEntryId hinsert fun _ _ => trivial

theorem onConn_updatedPackage (old : Package) (name : String) (seq diffEntryId : ℤ)
    (data : PackageOnlyPackument) :
    Hoare.Preserves (OnConn (C := C) J) (updatedPackage E old name seq diffEntryId data) := by
  cases data with
  | normal latest created modified otherDistTags extraVersionTimes =>
    refine Hoare.Preserves.bind ?_ fun _ => .pure
    cases latest with
    | none => exact .pure
    | some l => exact Hoare.Preserves.bind (onConn_getVersionIdBySemver _ _) fun _ => .pure
  | unpublished created modified unpublishedBlob extraVersionTimes =>
    exact Hoare.Preserves.bind (preserves_expect _ _) fun _ => .pure
  | missingData => exact .pure
  | deleted => exact .pure

theorem onConn_updatePackage (name : String) (data : PackageOnlyPackument) (seq diffEntryId : ℤ)
    (hupdate : ∀ id diff, Hoare.Preserves J (Packages.updatePackage id diff)) :
    Hoare.Preserves (OnConn (C := C) J)
      (EntryProcessor.updatePackage E name data seq diffEntryId) := by
  refine Hoare.Preserves.bind (onConn_getPackageByName E name) fun old => ?_
  refine Hoare.Preserves.bind (onConn_updatedPackage E _ _ _ _ _) fun new => ?_
  refine Hoare.Preserves.bind (onConn_popPackageData _) fun found => ?_
  cases found with
  | some e => exact Hoare.Preserves.bind (onConn_update _) fun _ => onConn_query (hupdate _ _)
  | none => exact Hoare.Preserves.bind .pure fun _ => onConn_query (hupdate _ _)

theorem onConn_patchPackageRefs (package : String)
    (hpatch : ∀ id, Hoare.Preserves J (Dependencies.updateDepsMissingPack E.digests package id)) :
    Hoare.Preserves (OnConn (C := C) J) (patchPackageRefs E package) := by
  refine Hoare.Preserves.bind (onConn_getPackageIdByName package) fun id => ?_
  refine Hoare.Preserves.bind (onConn_update _) fun _ => ?_
  exact Hoare.Preserves.bind (onConn_update _) fun _ => onConn_query (hpatch id)

theorem onConn_assertDepsEq (old : List Dependency) (new : List (String × Spec)) :
    Hoare.Preserves (OnConn (C := C) J) (assertDepsEq old new) := by
  refine Hoare.Preserves.bind (preserves_guardOr _ _) fun _ => Hoare.Preserves.forM fun e => ?_
  refine Hoare.Preserves.bind (preserves_guardOr _ _) fun _ => ?_
  exact Hoare.Preserves.bind (preserves_guardOr _ _) fun _ => preserves_guardOr _ _

theorem onConn_assertRepoEq (currentData : Version) (repo : Option RepositoryInfo) :
    Hoare.Preserves (OnConn (C := C) J) (assertRepoEq currentData repo) := by
  cases repo with
  | some r =>
    refine Hoare.Preserves.bind (preserves_expect _ _) fun _ => ?_
    refine Hoare.Preserves.bind (preserves_expect _ _) fun _ => ?_
    exact Hoare.Preserves.bind (preserves_guardOr _ _) fun _ => preserves_guardOr _ _
  | none => exact Hoare.Preserves.bind (preserves_guardOr _ _) fun _ => preserves_guardOr _ _

theorem onConn_newDependencies (depType : DependencyType) (deps : List (String × Spec)) :
    Hoare.Preserves (OnConn (C := C) J) (newDependencies E depType deps) :=
  Hoare.Preserves.mapM fun _ =>
    Hoare.Preserves.bind (onConn_maybeGetPackageIdByName _) fun _ => .pure

/-- The statement that inserts a new dependency preserves the property. -/
def KeepsNew (J : Db → Prop) (depType : DependencyType) (dep : String × Spec) : Prop :=
  ∀ dst, Hoare.Preserves J (Dependencies.insertDependencyIncCounts
    (.create E.digests dep.1 dst dep.2.raw dep.2.parsed depType))

theorem newDependencies_keepsNew (depType : DependencyType) {deps : List (String × Spec)}
    (hnew : ∀ dep ∈ deps, KeepsNew E J depType dep) :
    Hoare.Triple (OnConn (C := C) J) (newDependencies E depType deps)
      (fun new w => J w.conn ∧
        ∀ e ∈ new, Hoare.Preserves J (Dependencies.insertDependencyIncCounts e.1))
      fun _ => True := by
  refine Hoare.Triple.pre (Hoare.Triple.mapM _
    (fun _ (new : List (NewDependency × DependencyType)) (w : World C) => J w.conn ∧
      ∀ e ∈ new, Hoare.Preserves J (Dependencies.insertDependencyIncCounts e.1))
    fun done dep rest new hdeps => Hoare.Triple.of_and fun hold => ?_) fun w hw => ⟨hw, by simp⟩
  refine Hoare.Triple.bind (onConn_maybeGetPackageIdByName dep.1) fun dst =>
    Hoare.Triple.pure fun w hw => ⟨hw, fun e he => ?_⟩
  rcases List.mem_append.mp he with he | he
  · exact hold e he
  · rw [List.mem_singleton.mp he]
    exact hnew dep (by simp [hdeps]) dst

theorem onConn_createVersion (package : String) (version : Semver) (data : VersionOnlyPackument)
    (seq diffEntryId : ℤ) (hcounts : KeepsCounts J)
    (hnew : ∀ depType, ∀ dep ∈ dependenciesOf data depType, KeepsNew E J depType dep)
    (hversion : ∀ new, Hoare.Preserves J (Versions.insertNewVersion new)) :
    Hoare.Preserves (OnConn (C := C) J) (createVersion E package version data seq diffEntryId) := by
  refine Hoare.Preserves.bind (preserves_guardOr _ _) fun _ => ?_
  refine Hoare.Preserves.bind (preserves_guardOr _ _) fun _ => ?_
  refine Hoare.Preserves.bind (preserves_guardOr _ _) fun _ => ?_
  refine Hoare.Preserves.bind (preserves_guardOr _ _) fun _ => ?_
  refine Hoare.Preserves.bind (onConn_getPackageIdByName package) fun packageId => ?_
  refine Hoare.Triple.bind (newDependencies_keepsNew E .prod (hnew .prod))
    fun prod => Hoare.Triple.of_and fun hprod => ?_
  refine Hoare.Triple.bind (newDependencies_keepsNew E .dev (hnew .dev))
    fun dev => Hoare.Triple.of_and fun hdev => ?_
  refine Hoare.Triple.bind (newDependencies_keepsNew E .peer (hnew .peer))
    fun peer => Hoare.Triple.of_and fun hpeer => ?_
  refine Hoare.Triple.bind (newDependencies_keepsNew E .optional (hnew .optional))
    fun optional => Hoare.Triple.of_and fun hoptional => ?_
  have hall : ∀ e ∈ prod ++ dev ++ peer ++ optional,
      Hoare.Preserves J (Dependencies.insertDependencyIncCounts e.1) := by
    intro e he
    simp only [List.mem_append] at he
    rcases he with ((he | he) | he) | he
    exacts [hprod e he, hdev e he, hpeer e he, hoptional e he]
  generalize prod ++ dev ++ peer ++ optional = new at hall ⊢
  refine Hoare.Preserves.bind (onConn_insertOrIncDependencies hcounts fun dep hdep => ?_)
    fun ids => ?_
  · rw [List.unzip_eq_map] at hdep
    obtain ⟨e, he, rfl⟩ := List.mem_map.mp hdep
    exact hall e he
  · exact Hoare.Preserves.bind (onConn_query (hversion _)) fun _ => onConn_update _

/-- The statements of an update or a deletion of a version preserve the property. A dependency
that is counted is a row, up to its counters. -/
structure KeepsVersions (J : Db → Prop) (okDep : NewDependency → Prop) (seq diffEntryId : ℤ) :
    Prop where
  counts : KeepsCounts J
  rows : ∀ db, J db → ∀ d ∈ db.dependencies.rows, ∀ counts, okDep { d.asNew with counts }
  insert : ∀ dep, okDep dep → Hoare.Preserves J (Dependencies.insertDependencyIncCounts dep)
  setState : ∀ state versionId,
    Hoare.Preserves J (Versions.setState state versionId seq diffEntryId none)
  setExtraMetadata : ∀ versionId data,
    Hoare.Preserves J (Versions.setVersionExtraMetadata versionId data)

/-- Dependencies that are read as rows and counted again preserve the property. -/
structure CountsRows (J : Db → Prop) (okDep : NewDependency → Prop) : Prop where
  counts : KeepsCounts J
  rows : ∀ db, J db → ∀ d ∈ db.dependencies.rows, ∀ counts, okDep { d.asNew with counts }
  insert : ∀ dep, okDep dep → Hoare.Preserves J (Dependencies.insertDependencyIncCounts dep)

variable {okDep : NewDependency → Prop} {seq diffEntryId : ℤ}

theorem KeepsVersions.countsRows (h : KeepsVersions J okDep seq diffEntryId) : CountsRows J okDep :=
  ⟨h.counts, h.rows, h.insert⟩

section Versions

variable {J' : Db → Prop} (h : CountsRows J okDep)

include h

theorem CountsRows.currentDeps_triple (depType : DependencyType) (currentData : Version) :
    Hoare.Triple (OnConn (C := C) J) (currentDeps depType currentData)
      (fun deps w => J w.conn ∧ ∀ d ∈ deps, ∀ counts, okDep { d.asNew with counts })
      fun _ => True := by
  refine Hoare.Triple.pre (Hoare.Triple.mapM _
    (fun _ (deps : List Dependency) (w : World C) =>
      J w.conn ∧ ∀ d ∈ deps, ∀ counts, okDep { d.asNew with counts })
    fun done id rest deps _ => Hoare.Triple.of_and fun hdeps => ?_) fun w hw => ⟨hw, by simp⟩
  intro w hw
  rw [getDependencyById, query, Dependencies.getDependencyById, Hoare.bind_apply, Hoare.get_apply]
  dsimp only
  rw [expect_apply]
  cases hfind : Rows.find Dependency.id w.conn.dependencies.rows id with
  | none => trivial
  | some d =>
    refine ⟨hw, fun d' hd' => ?_⟩
    rcases List.mem_append.mp hd' with hd' | hd'
    · exact hdeps d' hd'
    · rw [List.mem_singleton.mp hd']
      exact h.rows w.conn hw d (Rows.mem_of_find hfind)

theorem CountsRows.markedDeps {mark : Dependency → DependencyType → Dependency}
    (hmark : ∀ d depType, ∃ counts, (mark d depType).asNew = { d.asNew with counts })
    (depType : DependencyType) {deps : List Dependency}
    (hdeps : ∀ d ∈ deps, ∀ counts, okDep { d.asNew with counts }) :
    Hoare.Preserves (OnConn (C := C) J)
      (discard <| insertOrIncDependencies (markAll mark depType deps)) := by
  refine Hoare.Preserves.bind (onConn_insertOrIncDependencies h.counts fun dep hdep => ?_)
    fun _ => .pure
  obtain ⟨d, hd, rfl⟩ := List.mem_map.mp hdep
  obtain ⟨counts, heq⟩ := hmark d depType
  rw [heq]
  exact h.insert _ (hdeps d hd counts)

/-- The new state of the version may lead to another property. -/
theorem CountsRows.updateVersion_onConn (name : String) (version : Semver)
    (data : VersionOnlyPackument) (hsame : ∀ db, J db → J' db)
    (hset : ∀ versionId, Hoare.Triple J (Versions.setState .normal versionId seq diffEntryId none)
      (fun _ => J') fun _ => True)
    (hsetMetadata : ∀ versionId data,
      Hoare.Preserves J' (Versions.setVersionExtraMetadata versionId data)) :
    Hoare.Triple (OnConn (C := C) J) (updateVersion name version data seq diffEntryId)
      (fun _ => OnConn J') fun _ => True := by
  have hpure {α : Type} {x : Run C α} (hx : Hoare.Preserves (OnConn J) x) := hx
  refine Hoare.Triple.bind (hpure (onConn_getPackageIdByName name)) fun packageId => ?_
  refine Hoare.Triple.bind (hpure (onConn_getVersionIdBySemver _ _)) fun versionId => ?_
  refine Hoare.Triple.bind (hpure (onConn_query preserves_read)) fun currentData => ?_
  refine Hoare.Triple.bind (h.currentDeps_triple _ _) fun prod => Hoare.Triple.of_and fun hprod => ?_
  refine Hoare.Triple.bind (h.currentDeps_triple _ _) fun dev => Hoare.Triple.of_and fun hdev => ?_
  refine Hoare.Triple.bind (h.currentDeps_triple _ _) fun peer => Hoare.Triple.of_and fun hpeer => ?_
  refine Hoare.Triple.bind (h.currentDeps_triple _ _)
    fun optional => Hoare.Triple.of_and fun hoptional => ?_
  refine Hoare.Triple.bind (hpure (onConn_assertDepsEq _ _)) fun _ => ?_
  refine Hoare.Triple.bind (hpure (onConn_assertDepsEq _ _)) fun _ => ?_
  refine Hoare.Triple.bind (hpure (onConn_assertDepsEq _ _)) fun _ => ?_
  refine Hoare.Triple.bind (hpure (onConn_assertDepsEq _ _)) fun _ => ?_
  refine Hoare.Triple.bind (hpure (preserves_guardOr _ _)) fun _ => ?_
  refine Hoare.Triple.bind (hpure (onConn_assertRepoEq _ _)) fun _ => ?_
  have hmetadata : Hoare.Preserves (OnConn (C := C) J')
      (if (currentData.extraMetadata != Value.object data.extraMetadata.toList) = true then
        query (Versions.setVersionExtraMetadata versionId (.object data.extraMetadata.toList))
      else pure ()) := by
    split_ifs
    · exact onConn_query (hsetMetadata _ _)
    · exact .pure
  have hmark (d : Dependency) (depType : DependencyType) :
      ∃ counts, (d.markAsAdd depType).asNew = { d.asNew with counts } := ⟨_, rfl⟩
  dsimp only
  by_cases hnormal : currentData.currentVersionStateType ≠ .normal
  · rw [if_pos hnormal]
    refine Hoare.Triple.bind (hpure (preserves_guardOr _ _)) fun _ => ?_
    refine Hoare.Triple.bind (h.markedDeps hmark _ hprod) fun _ => ?_
    refine Hoare.Triple.bind (h.markedDeps hmark _ hdev) fun _ => ?_
    refine Hoare.Triple.bind (h.markedDeps hmark _ hpeer) fun _ => ?_
    refine Hoare.Triple.bind (h.markedDeps hmark _ hoptional) fun _ => ?_
    exact Hoare.Triple.bind (onConn_query_triple (hset _)) fun _ => hmetadata
  · rw [if_neg hnormal]
    exact hmetadata.pre fun w hw => hsame w.conn hw

theorem CountsRows.deleteVersion_onConn (name : String) (version : Semver)
    (hset : ∀ versionId, Hoare.Triple J (Versions.setState .deleted versionId seq diffEntryId none)
      (fun _ => J') fun _ => True) :
    Hoare.Triple (OnConn (C := C) J) (deleteVersion name version seq diffEntryId)
      (fun _ => OnConn J') fun _ => True := by
  have hpure {α : Type} {x : Run C α} (hx : Hoare.Preserves (OnConn J) x) := hx
  refine Hoare.Triple.bind (hpure (onConn_getPackageIdByName name)) fun packageId => ?_
  refine Hoare.Triple.bind (hpure (onConn_getVersionIdBySemver _ _)) fun versionId => ?_
  refine Hoare.Triple.bind (hpure (onConn_query preserves_read)) fun currentData => ?_
  refine Hoare.Triple.bind (h.currentDeps_triple _ _) fun prod => Hoare.Triple.of_and fun hprod => ?_
  refine Hoare.Triple.bind (h.currentDeps_triple _ _) fun dev => Hoare.Triple.of_and fun hdev => ?_
  refine Hoare.Triple.bind (h.currentDeps_triple _ _) fun peer => Hoare.Triple.of_and fun hpeer => ?_
  refine Hoare.Triple.bind (h.currentDeps_triple _ _)
    fun optional => Hoare.Triple.of_and fun hoptional => ?_
  have hmark (d : Dependency) (depType : DependencyType) :
      ∃ counts, (d.markAsDelete depType).asNew = { d.asNew with counts } := ⟨_, rfl⟩
  refine Hoare.Triple.bind (h.markedDeps hmark _ hprod) fun _ => ?_
  refine Hoare.Triple.bind (h.markedDeps hmark _ hdev) fun _ => ?_
  refine Hoare.Triple.bind (h.markedDeps hmark _ hpeer) fun _ => ?_
  refine Hoare.Triple.bind (h.markedDeps hmark _ hoptional) fun _ => ?_
  exact onConn_query_triple (hset _)

end Versions

section

variable (h : KeepsVersions J okDep seq diffEntryId)

include h

theorem onConn_updateVersion (name : String) (version : Semver) (data : VersionOnlyPackument) :
    Hoare.Preserves (OnConn (C := C) J) (updateVersion name version data seq diffEntryId) :=
  h.countsRows.updateVersion_onConn name version data (fun _ hdb => hdb) (h.setState .normal)
    h.setExtraMetadata

theorem onConn_deleteVersion (name : String) (version : Semver) :
    Hoare.Preserves (OnConn (C := C) J) (deleteVersion name version seq diffEntryId) :=
  h.countsRows.deleteVersion_onConn name version (h.setState .deleted)

end

end Entries

end NpmFollower.RelationalDbBuilder
