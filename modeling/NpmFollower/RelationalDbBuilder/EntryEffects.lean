import NpmFollower.RelationalDbBuilder.DependencyCounters

/-! # What an entry of the diff log does

Each entry keeps the invariant and the rows that are there. It changes counters
and live versions alike, except that it counts the dependencies of a version
down once more where it deletes a version that is not live.
-/

namespace NpmFollower.RelationalDbBuilder

open Std PostgresDb RelationalDbAccessor

variable {C : LruCaches}

def HasPackage (db : Db) (name : String) : Prop := (packageIdOf db name).isSome

def HasVersion (db : Db) (name : String) (v : Semver) : Prop :=
  ∃ id, packageIdOf db name = some id ∧ (versionIdOf db (id, v)).isSome

/-- The rows that an entry needs, and no latest version for a package that is created. -/
def Expected (db : Db) (e : DiffLogEntry) : Prop :=
  match e.instr with
  | .createPackage data => data.latest = none
  | .updatePackage data => HasPackage db e.packageName ∧
      ∀ l, data.latest = some l → HasVersion db e.packageName l
  | .patchPackageReferences => HasPackage db e.packageName
  | .createVersion _ _ => HasPackage db e.packageName
  | .updateVersion v _ => HasVersion db e.packageName v
  | .deleteVersion v => HasVersion db e.packageName v

/-- The row of a version that an entry deletes although it is not live. -/
def deletedAgain (db : Db) (e : DiffLogEntry) : Option Version := do
  match e.instr with
  | .deleteVersion v =>
    let packageId ← packageIdOf db e.packageName
    let row ← Rows.find versionKey db.versions.rows (packageId, v)
    if row.currentVersionStateType = .normal then none else some row
  | _ => none

/-- How often an entry counts a dependency down without a live version for it. -/
def undercount (db : Db) (e : DiffLogEntry) (t : DependencyType) (i : ℤ) : ℕ :=
  (deletedAgain db e).elim 0 fun row => (row.dependencies t).count i

/-- Rows stay where they are found. -/
structure Grows (w₀ w : World C) : Prop where
  packages : ∀ name id, packageIdOf w₀.conn name = some id → packageIdOf w.conn name = some id
  versions : ∀ key id, versionIdOf w₀.conn key = some id → versionIdOf w.conn key = some id
  dependencies : ∀ d ∈ w₀.conn.dependencies.rows,
    ∃ d' ∈ w.conn.dependencies.rows, digest d' = digest d ∧ d'.id = d.id

/-- The invariant, the rows and the deficits after some statements. -/
structure Effect (w₀ : World C) (short : DependencyType → ℤ → ℤ) (w : World C) : Prop where
  inv : w.Inv
  grows : Grows w₀ w
  deficit : ∀ t i, w.deficit t i = w₀.deficit t i + short t i

theorem Grows.refl (w : World C) : Grows w w :=
  ⟨fun _ _ h => h, fun _ _ h => h, fun d hd => ⟨d, hd, rfl, rfl⟩⟩

theorem Grows.trans {w₀ w₁ w₂ : World C} (h : Grows w₀ w₁) (h' : Grows w₁ w₂) : Grows w₀ w₂ where
  packages name id hid := h'.packages name id (h.packages name id hid)
  versions key id hid := h'.versions key id (h.versions key id hid)
  dependencies d hd := by
    obtain ⟨d₁, hd₁, hdigest₁, hid₁⟩ := h.dependencies d hd
    obtain ⟨d₂, hd₂, hdigest₂, hid₂⟩ := h'.dependencies d₁ hd₁
    exact ⟨d₂, hd₂, hdigest₂.trans hdigest₁, hid₂.trans hid₁⟩

theorem Effect.trans {w₀ w₁ w₂ : World C} {short short' : DependencyType → ℤ → ℤ}
    (h : Effect w₀ short w₁) (h' : Effect w₁ short' w₂) :
    Effect w₀ (fun t i => short t i + short' t i) w₂ where
  inv := h'.inv
  grows := h.grows.trans h'.grows
  deficit t i := by rw [h'.deficit, h.deficit, add_assoc]

theorem Counted.effect {w₀ w : World C} {δ : DependencyType → ℤ → ℤ} (h : Counted w₀ δ w) :
    Effect w₀ (fun t i => -δ t i) w where
  inv := h.inv
  grows :=
    { packages name id hid := by rwa [packageIdOf, h.packages]
      versions key id hid := by rwa [versionIdOf, h.versions]
      dependencies := h.rows }
  deficit t i := by
    rw [World.deficit, World.deficit, live, h.versions, h.counter, live]
    ring

/-- What a version contributes to the live versions of a dependency. -/
def liveCount (v : Version) (t : DependencyType) (i : ℤ) : ℤ :=
  if v.currentVersionStateType = .normal then (v.dependencies t).count i else 0

theorem live_eq_sum (db : Db) (t : DependencyType) (i : ℤ) :
    (live db t i : ℤ) = (db.versions.rows.map fun v => liveCount v t i).sum := by
  rw [live]
  induction db.versions.rows with
  | nil => rfl
  | cons v l ih =>
    rw [List.map_cons, List.sum_cons, ← ih, liveCount]
    by_cases hv : v.currentVersionStateType = .normal
    · rw [if_pos hv, List.filter_cons_of_pos (by simpa using hv), List.flatMap_cons,
        List.count_append]
      push_cast
      rfl
    · rw [if_neg hv, List.filter_cons_of_neg (by simpa using hv), zero_add]

theorem missingOnly_of_not {p : Prop} {e : Panic} (h : e.isMissing = false) : MissingOnly p e := by
  intro hmissing
  rw [h] at hmissing
  cases hmissing

section Packages

variable {w₀ w : World C}

/-- Another table of packages, in which the rows are still found, with caches that fit it. -/
theorem Keeps.setPackages (h : Keeps w₀ w) (hw₀ : w₀.Inv) (packages : Table Package)
    (ids : C.packageId.State) (data : C.packageData.State)
    (hidentity : packages.Identity Package.id)
    (hgrows : ∀ name id, packageIdOf w₀.conn name = some id →
      packageIdOf { w₀.conn with packages } name = some id)
    (hids : ∀ name id, C.packageId.peek ids name = some id →
      packageIdOf { w₀.conn with packages } name = id)
    (hdata : ∀ name p, C.packageData.peek data name = some p →
      p.name = name ∧ packageIdOf { w₀.conn with packages } name = some p.id) :
    Effect w₀ (fun _ _ => 0)
      { accessor := { w.accessor with packageIdCache := ids, packageDataCache := data }
        conn := { w.conn with packages } } := by
  have hdeps : World.DepsInv
      { accessor := { w.accessor with packageIdCache := ids, packageDataCache := data }
        conn := { w.conn with packages } } := h.inv.deps.of_eq rfl rfl rfl
  refine ⟨⟨hdeps, hidentity, h.inv.versions, hids, hdata, h.inv.versionIds, h.inv.versionDeps⟩,
    ⟨hgrows, ?_, ?_⟩, ?_⟩
  · intro key id hrow
    rwa [← h.conn] at hrow
  · intro d hd
    exact ⟨d, by rwa [← h.conn] at hd, rfl, rfl⟩
  · intro t i
    rw [add_zero, World.deficit, World.deficit, World.counter_congr (w := w₀) hw₀.deps hdeps]
    · rw [← h.conn]
      rfl
    · rw [← h.depState]
      rfl
    · rw [← h.conn]

theorem insertNewPackage_query (newPackage : NewPackage) (db : Db) :
    match Packages.insertNewPackage newPackage db with
    | .ok (row, db') => row = { newPackage with id := db.packages.nextId } ∧
        packageIdOf db newPackage.name = none ∧
        db' = { db with packages := ({ db.packages with nextId := db.packages.nextId + 1 } :
          Table Package).insert row }
    | .error e => e.isMissing = false := by
  simp only [Packages.insertNewPackage, Hoare.bind_apply, Hoare.get_apply, expect_apply,
    Table.nextval, guardOr_apply]
  by_cases hnext : db.packages.nextId < 2 ^ 63
  · simp only [if_pos hnext, Option.elim_some]
    split_ifs with hguard
    · refine ⟨rfl, ?_, rfl⟩
      rw [packageIdOf, Option.map_eq_none_iff, Rows.find_eq_none_iff]
      intro p hp hname
      simp only [Bool.and_eq_true, Bool.not_eq_true', List.any_eq_false] at hguard
      exact hguard.1.2 p hp (by simpa using hname)
    · rfl
  · simp only [if_neg hnext]
    rfl

theorem packageIdOf_insert {db : Db} (row : Package) (n : ℤ) (hnone : packageIdOf db row.name = none)
    (name : String) :
    packageIdOf { db with packages := ({ db.packages with nextId := n } : Table Package).insert row } name =
      if name = row.name then some row.id else packageIdOf db name := by
  rw [packageIdOf, Option.map_eq_none_iff] at hnone
  rw [packageIdOf, Table.insert, Rows.find_append_singleton]
  by_cases hname : row.name = name
  · subst hname
    rw [hnone, Option.none_or, if_pos rfl, if_pos rfl]
    rfl
  · rw [if_neg hname, Option.or_none, if_neg (Ne.symm hname)]
    rfl

variable (hC : C.Lawful)

include hC

theorem insertNewPackage_triple (E : Env) (newPackage : NewPackage) (hw₀ : w₀.Inv) {p : Prop} :
    Hoare.Triple (Keeps w₀) (insertNewPackage E newPackage)
      (fun _ w => Effect w₀ (fun _ _ => 0) w ∧ HasPackage w.conn newPackage.name)
      (MissingOnly p) := by
  rintro ⟨accessor, conn⟩ hw
  obtain rfl : conn = w₀.conn := hw.conn
  have hquery := insertNewPackage_query newPackage w₀.conn
  rw [insertNewPackage, Hoare.bind_apply, query]
  dsimp only
  cases hrun : Packages.insertNewPackage newPackage w₀.conn with
  | error e =>
    rw [hrun] at hquery
    exact missingOnly_of_not hquery
  | ok r =>
    rw [hrun] at hquery
    obtain ⟨row, db'⟩ := r
    obtain ⟨rfl, hnone, rfl⟩ := hquery
    set row : Package := { newPackage with id := w₀.conn.packages.nextId }
    have hid := packageIdOf_insert row (w₀.conn.packages.nextId + 1) hnone
    refine ⟨hw.setPackages hw₀ _ (C.packageId.put accessor.packageIdCache row.name (some row.id))
      (C.packageData.putWithCost accessor.packageDataCache row.name row (E.deepSizeOf row))
      (hw₀.packages.insert rfl) ?_ ?_ ?_, ?_⟩
    · intro name id hrow
      rw [hid, if_neg]
      · exact hrow
      · rintro rfl
        exact absurd hrow (by rw [hnone]; simp)
    · intro name id hentry
      rw [hid]
      rcases hC.packageId.of_peek_put hentry with ⟨rfl, rfl⟩ | ⟨hname, hentry⟩
      · exact if_pos rfl
      · rw [if_neg hname]
        exact hw.packageIds hentry
    · intro name p hentry
      rw [hid]
      rcases hC.packageData.of_peek_putWithCost hentry with ⟨rfl, rfl⟩ | ⟨hname, hentry⟩
      · exact ⟨rfl, if_pos rfl⟩
      · rw [if_neg hname]
        exact hw.packageData hentry
    · exact Option.isSome_of_eq_some ((hid newPackage.name).trans (if_pos rfl))

omit hC in
theorem packageIdOf_update (db : Db) (id : ℤ) (diff : PackageUpdate) (name : String) :
    packageIdOf { db with packages := { db.packages with
      rows := Rows.updateWhere Package.id db.packages.rows id (·.applyDiff diff) } } name =
        packageIdOf db name := by
  rw [packageIdOf, Rows.updateWhere, Rows.find_map (fun r => by split_ifs <;> rfl), Option.map_map]
  refine Option.map_congr fun r _ => ?_
  rw [Function.comp_apply]
  split_ifs <;> rfl

omit hC in
theorem updatePackage_query_triple (id : ℤ) (diff : PackageUpdate) (hw₀ : w₀.Inv) {p : Prop} :
    Hoare.Triple (Keeps w₀) (query (Packages.updatePackage id diff))
      (fun _ => Effect w₀ fun _ _ => 0) (MissingOnly p) := by
  rintro ⟨accessor, conn⟩ hw
  obtain rfl : conn = w₀.conn := hw.conn
  simp only [query, Packages.updatePackage, Hoare.bind_apply, Hoare.get_apply, guardOr_apply]
  split_ifs with hcheck
  · refine hw.setPackages hw₀ _ accessor.packageIdCache accessor.packageDataCache ?_ ?_ ?_ ?_
    · exact hw₀.packages.of_map_eq
        (Rows.map_updateWhere (f := fun p : Package => p.applyDiff diff)
        (fun _ => rfl) _ _) le_rfl
    · intro name id' hrow
      rwa [packageIdOf_update]
    · intro name id' hentry
      rw [packageIdOf_update]
      exact hw.packageIds hentry
    · intro name p hentry
      rw [packageIdOf_update]
      exact hw.packageData hentry
  · exact missingOnly_of_not rfl

theorem updatePackage_triple (E : Env) (id : ℤ) (name : String) (diff : PackageUpdate)
    (hw₀ : w₀.Inv) {p : Prop} :
    Hoare.Triple (Keeps w₀) (updatePackage E id name diff)
      (fun _ => Effect w₀ fun _ _ => 0) (MissingOnly p) := by
  refine Hoare.Triple.bind (popPackageData_triple hC name)
    fun found => Hoare.Triple.of_and fun h => ?_
  cases found with
  | none => exact updatePackage_query_triple id diff hw₀
  | some e =>
    obtain ⟨hname, hid⟩ := h e rfl
    have hrow : packageIdOf w₀.conn (e.applyDiff diff).name = some (e.applyDiff diff).id := by
      rw [Package.applyDiff_name, Package.applyDiff_id, hname, hid]
    exact Hoare.Triple.bind (putPackageData_triple hC E hrow)
      fun _ => updatePackage_query_triple id diff hw₀

omit hC in
/-- The rows of dependencies changed in what is neither their key nor their counters. -/
theorem Keeps.mapDependencies (h : Keeps w₀ w) (hw₀ : w₀.Inv) {f : Dependency → Dependency}
    (hid : ∀ d, (f d).id = d.id) (hdigest : ∀ d, digest (f d) = digest d)
    (hcounts : ∀ d, (f d).counts = d.counts) :
    Counted w₀ (fun _ _ => 0) { w with conn := { w.conn with dependencies := { w.conn.dependencies with
      rows := w.conn.dependencies.rows.map f } } } := by
  set w' : World C := { w with conn := { w.conn with dependencies := { w.conn.dependencies with
    rows := w.conn.dependencies.rows.map f } } }
  have hids : w'.conn.dependencies.rows.map Dependency.id =
      w.conn.dependencies.rows.map Dependency.id := by
    rw [List.map_map]
    exact List.map_congr_left fun d _ => hid d
  have hdigests : w'.conn.dependencies.rows.map digest = w.conn.dependencies.rows.map digest := by
    rw [List.map_map]
    exact List.map_congr_left fun d _ => hdigest d
  have hstate : w'.depState = w.depState := by
    refine WriteBack.State.ext (funext fun hash => ?_) rfl rfl
    change (Rows.find digest (w.conn.dependencies.rows.map f) hash).map (·.counts) = _
    rw [Rows.find_map hdigest, Option.map_map]
    exact Option.map_congr fun d _ => hcounts d
  have hrow {d : Dependency} (hd : d ∈ w.conn.dependencies.rows) :
      ∃ d' ∈ w'.conn.dependencies.rows, digest d' = digest d ∧ d'.id = d.id :=
    ⟨f d, List.mem_map_of_mem hd, hdigest d, hid d⟩
  have hdeps : w'.DepsInv := by
    refine ⟨h.inv.deps.identity.of_map_eq hids le_rfl, hdigests ▸ h.inv.deps.digests,
      hstate ▸ h.inv.deps.coherent, fun hash state hentry => ?_⟩
    obtain ⟨d, hd, hdigest₁, hid₁⟩ := h.inv.deps.ids hash state hentry
    obtain ⟨d', hd', hdigest₂, hid₂⟩ := hrow hd
    exact ⟨d', hd', hdigest₂.trans hdigest₁, hid₂.trans hid₁⟩
  have hinv : w'.Inv :=
    { deps := hdeps
      packages := h.inv.packages
      versions := h.inv.versions
      packageIds := h.inv.packageIds
      packageData := h.inv.packageData
      versionIds := h.inv.versionIds
      versionDeps v hv t i hi := by
        obtain ⟨d, hd, rfl⟩ := h.inv.versionDeps v hv t i hi
        exact ⟨f d, List.mem_map_of_mem hd, hid d⟩ }
  refine ⟨hinv, by rw [← h.conn], by rw [← h.conn], fun d hd => ?_, fun t i => ?_⟩
  · rw [← h.conn] at hd
    exact hrow hd
  · rw [add_zero]
    refine World.counter_congr hw₀.deps hdeps (by rw [hstate, h.depState]) ?_
    rw [← h.conn, List.map_map]
    exact List.map_congr_left fun d _ => Prod.ext (hid d) (hdigest d)

omit hC in
theorem updateDepsMissingPack_query_triple (D : Digests) (name : String) (id : ℤ) (hw₀ : w₀.Inv)
    {p : Prop} :
    Hoare.Triple (Keeps w₀) (query (Dependencies.updateDepsMissingPack D name id))
      (fun _ => Effect w₀ fun _ _ => 0) (MissingOnly p) := by
  rintro ⟨accessor, conn⟩ hw
  obtain rfl : conn = w₀.conn := hw.conn
  simp only [query, Dependencies.updateDepsMissingPack, Hoare.bind_apply, Hoare.get_apply,
    guardOr_apply]
  split_ifs with hcheck
  · have hcounted := hw.mapDependencies hw₀ (f := fun d =>
      if d.md5digest = D.sha256 name && d.dstPackageIdIfExists.isNone && d.dstPackageName = name then
        { d with dstPackageIdIfExists := some id } else d)
      (fun d => by split_ifs <;> rfl) (fun d => by split_ifs <;> rfl) (fun d => by split_ifs <;> rfl)
    have heffect := hcounted.effect
    simp only [neg_zero] at heffect
    exact heffect
  · exact missingOnly_of_not rfl

theorem updateDepsMissingPack_triple (E : Env) {name : String} {id : ℤ} (hw₀ : w₀.Inv)
    (hid : packageIdOf w₀.conn name = some id) {p : Prop} :
    Hoare.Triple (Keeps w₀) (updateDepsMissingPack E name id)
      (fun _ => Effect w₀ fun _ _ => 0) (MissingOnly p) := by
  refine Hoare.Triple.bind (putPackageId_triple hC hid) fun _ => ?_
  refine Hoare.Triple.bind (promotePackageData_triple hC name) fun _ => ?_
  exact updateDepsMissingPack_query_triple E.digests name id hw₀

end Packages

section Versions

variable {w₀ w : World C}

/-- Another table of versions, in which the rows are still found, with a cache that fits it. -/
theorem World.Inv.setVersions (h : w.Inv) (versions : Table Version) (cache : C.versionId.State)
    (short : DependencyType → ℤ → ℤ) (hidentity : versions.Identity Version.id)
    (hgrows : ∀ key id, versionIdOf w.conn key = some id →
      versionIdOf { w.conn with versions } key = some id)
    (hcache : ∀ key id, C.versionId.peek cache key = some id →
      versionIdOf { w.conn with versions } key = some id)
    (hdeps : ∀ v ∈ versions.rows, ∀ t, ∀ i ∈ v.dependencies t,
      ∃ d ∈ w.conn.dependencies.rows, d.id = i)
    (hlive : ∀ t i, (live { w.conn with versions } t i : ℤ) = live w.conn t i + short t i) :
    Effect w short
      { accessor := { w.accessor with versionIdCache := cache }
        conn := { w.conn with versions } } := by
  have hdepsInv : World.DepsInv
      { accessor := { w.accessor with versionIdCache := cache }
        conn := { w.conn with versions } } := h.deps.of_eq rfl rfl rfl
  refine ⟨⟨hdepsInv, h.packages, hidentity, h.packageIds, h.packageData, hcache, hdeps⟩,
    ⟨fun _ _ hid => hid, hgrows, fun d hd => ⟨d, hd, rfl, rfl⟩⟩, fun t i => ?_⟩
  rw [World.deficit, World.deficit, World.counter_congr (w := w) h.deps hdepsInv rfl rfl, hlive]
  ring

theorem insertNewVersion_query (newVersion : NewVersion) (db : Db) :
    match Versions.insertNewVersion newVersion db with
    | .ok (id, db') => id = db.versions.nextId ∧
        versionIdOf db (newVersion.packageId, newVersion.semver) = none ∧
        db' = { db with versions := ({ db.versions with nextId := db.versions.nextId + 1 } :
          Table Version).insert { newVersion with id } }
    | .error e => e.isMissing = false := by
  simp only [Versions.insertNewVersion, Hoare.bind_apply, Hoare.get_apply, expect_apply,
    Table.nextval, guardOr_apply]
  by_cases hnext : db.versions.nextId < 2 ^ 63
  · simp only [if_pos hnext, Option.elim_some]
    split_ifs with hguard
    · refine ⟨rfl, ?_, rfl⟩
      rw [versionIdOf, Option.map_eq_none_iff, Rows.find_eq_none_iff]
      intro v hv hkey
      obtain ⟨hpackage, hsemver⟩ := Prod.mk.inj hkey
      simp only [Bool.and_eq_true, Bool.not_eq_true', List.any_eq_false] at hguard
      exact hguard.2 v hv (by simp [hpackage, hsemver])
    · rfl
  · simp only [if_neg hnext]
    rfl

theorem versionIdOf_insert {db : Db} (row : Version) (n : ℤ)
    (hnone : versionIdOf db (versionKey row) = none) (key : ℤ × Semver) :
    versionIdOf { db with versions := ({ db.versions with nextId := n } : Table Version).insert row } key =
      if key = versionKey row then some row.id else versionIdOf db key := by
  rw [versionIdOf, Option.map_eq_none_iff] at hnone
  rw [versionIdOf, Table.insert, Rows.find_append_singleton]
  by_cases hkey : versionKey row = key
  · subst hkey
    rw [hnone, Option.none_or, if_pos rfl, if_pos rfl]
    rfl
  · rw [if_neg hkey, Option.or_none, if_neg (Ne.symm hkey)]
    rfl

theorem insertNewVersion_triple (hC : C.Lawful) {short : DependencyType → ℤ → ℤ}
    (newVersion : NewVersion) (hnormal : newVersion.currentVersionStateType = .normal) {p : Prop} :
    Hoare.Triple (fun w => Effect w₀ short w ∧ ∀ t, ∀ i ∈ newVersion.dependencies t,
        ∃ d ∈ w.conn.dependencies.rows, d.id = i)
      (insertNewVersion newVersion)
      (fun _ w => Effect w₀ (fun t i => short t i + (newVersion.dependencies t).count i) w ∧
        (versionIdOf w.conn (newVersion.packageId, newVersion.semver)).isSome)
      (MissingOnly p) := by
  rintro w ⟨hw, hdeps⟩
  have hquery := insertNewVersion_query newVersion w.conn
  rw [insertNewVersion, Hoare.bind_apply, query]
  cases hrun : Versions.insertNewVersion newVersion w.conn with
  | error e =>
    rw [hrun] at hquery
    exact missingOnly_of_not hquery
  | ok r =>
    rw [hrun] at hquery
    obtain ⟨id, db'⟩ := r
    obtain ⟨rfl, hnone, rfl⟩ := hquery
    set row : Version := { newVersion with id := w.conn.versions.nextId }
    have hid := versionIdOf_insert row (w.conn.versions.nextId + 1) hnone
    have heffect := hw.inv.setVersions _
      (C.versionId.put w.accessor.versionIdCache (versionKey row) row.id)
      (fun t i => (newVersion.dependencies t).count i) (hw.inv.versions.insert (r := row) rfl)
      ?_ ?_ ?_ ?_
    · exact ⟨hw.trans heffect, Option.isSome_of_eq_some ((hid _).trans (if_pos rfl))⟩
    · intro key id hrow
      rw [hid, if_neg]
      · exact hrow
      · rintro rfl
        exact absurd hrow (by rw [hnone]; simp)
    · intro key id hentry
      rw [hid]
      rcases hC.versionId.of_peek_put hentry with ⟨rfl, rfl⟩ | ⟨hkey, hentry⟩
      · exact if_pos rfl
      · rw [if_neg hkey]
        exact hw.inv.versionIds key id hentry
    · intro v hv t i hi
      rcases List.mem_append.mp hv with hv | hv
      · exact hw.inv.versionDeps v hv t i hi
      · cases List.mem_singleton.mp hv
        exact hdeps t i hi
    · intro t i
      rw [live_eq_sum, live_eq_sum, Table.insert, List.map_append, List.sum_append]
      simp [liveCount, row, hnormal]

/-- Rows of versions changed in neither their key nor their id are found as before. -/
theorem versionIdOf_updateWhere (db : Db) (id : ℤ) {f : Version → Version}
    (hkey : ∀ v, versionKey (f v) = versionKey v) (hid : ∀ v, (f v).id = v.id) (key : ℤ × Semver) :
    versionIdOf { db with versions := { db.versions with
      rows := Rows.updateWhere Version.id db.versions.rows id f } } key = versionIdOf db key := by
  rw [versionIdOf, Rows.updateWhere,
    Rows.find_map (fun r => by split_ifs; exacts [hkey r, rfl]), Option.map_map]
  refine Option.map_congr fun r _ => ?_
  rw [Function.comp_apply]
  split_ifs
  exacts [hid r, rfl]

/-- Rows of versions changed in what is neither their key nor their dependencies. -/
theorem World.Inv.updateVersions (h : w.Inv) (id : ℤ) (f : Version → Version)
    (short : DependencyType → ℤ → ℤ) (hkey : ∀ v, versionKey (f v) = versionKey v)
    (hid : ∀ v, (f v).id = v.id) (hdeps : ∀ v t, (f v).dependencies t = v.dependencies t)
    (hlive : ∀ t i, ((Rows.updateWhere Version.id w.conn.versions.rows id f).map
      fun v => liveCount v t i).sum = (w.conn.versions.rows.map fun v => liveCount v t i).sum +
        short t i) :
    Effect w short { w with conn := { w.conn with versions := { w.conn.versions with
      rows := Rows.updateWhere Version.id w.conn.versions.rows id f } } } := by
  have hidOf := versionIdOf_updateWhere w.conn id hkey hid
  refine h.setVersions _ w.accessor.versionIdCache short
    (h.versions.of_map_eq (Rows.map_updateWhere hid _ _) le_rfl) ?_ ?_ ?_ ?_
  · intro key id' hrow
    rwa [hidOf]
  · intro key id' hentry
    rw [hidOf]
    exact h.versionIds key id' hentry
  · intro v hv t i hi
    obtain ⟨r, hr, rfl⟩ := Rows.mem_updateWhere.mp hv
    refine h.versionDeps r hr t i ?_
    split_ifs at hi
    exacts [hdeps r t ▸ hi, hi]
  · intro t i
    rw [live_eq_sum, live_eq_sum]
    exact hlive t i

theorem setState_triple {short : DependencyType → ℤ → ℤ} (state : VersionStateType)
    (row : Version) (seq diffEntryId : ℤ) (time : Option DateTime) {p : Prop} :
    Hoare.Triple (fun w => Effect w₀ short w ∧ row ∈ w.conn.versions.rows)
      (query (Versions.setState state row.id seq diffEntryId time))
      (fun _ => Effect w₀ fun t i => short t i +
        ((if state = .normal then ((row.dependencies t).count i : ℤ) else 0) - liveCount row t i))
      (MissingOnly p) := by
  rintro w ⟨hw, hrow⟩
  have hfind := Rows.find_of_mem hw.inv.versions.nodup hrow
  simp only [query, Versions.setState, Versions.getVersionById, Hoare.bind_apply, Hoare.get_apply,
    expect_apply, hfind, Option.elim_some, Versions.updateWhereId, Hoare.modify_apply]
  refine hw.trans (hw.inv.updateVersions row.id _ _ (fun _ => rfl) (fun _ => rfl)
    (fun _ t => by cases t <;> rfl) fun t i => ?_)
  rw [Rows.sum_map_updateWhere hw.inv.versions.nodup hrow, sub_add_eq_add_sub, add_sub_assoc]
  congr 2

theorem setVersionExtraMetadata_triple {short : DependencyType → ℤ → ℤ} (id : ℤ) (data : Value)
    {p : Prop} :
    Hoare.Triple (Effect w₀ short) (query (Versions.setVersionExtraMetadata id data))
      (fun _ => Effect w₀ short) (MissingOnly p) := by
  intro w hw
  simp only [query, Versions.setVersionExtraMetadata, Hoare.bind_apply, Hoare.get_apply,
    guardOr_apply, Versions.updateWhereId, Hoare.modify_apply]
  split_ifs with hone
  · have heffect := hw.trans (hw.inv.updateVersions id (fun v => { v with extraMetadata := data })
      (fun _ _ => 0) (fun _ => rfl) (fun _ => rfl) (fun _ t => by cases t <;> rfl) fun t i => ?_)
    · simp only [add_zero] at heffect
      exact heffect
    · rw [add_zero, Rows.map_updateWhere fun v => ?_]
      cases t <;> rfl
  · exact missingOnly_of_not rfl

end Versions

end NpmFollower.RelationalDbBuilder
