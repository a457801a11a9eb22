import NpmFollower.RelationalDbBuilder.EntryProcessor
import NpmFollower.RelationalDbBuilder.AccessorInvariant

/-! # The caches of packages and versions

What the three caches hold is what the tables hold: the ids that are found for a
name or a version, and the whole row of a package. The rows of packages meet the
conditions of their table, so an update that keeps to them is never rejected.
-/

namespace NpmFollower.RelationalDbBuilder

open Std PostgresDb RelationalDbAccessor

variable {C : LruCaches}

def packageOf (db : Db) (name : String) : Option Package :=
  Rows.find (fun p => p.name) db.packages.rows name

theorem packageIdOf_eq (db : Db) (name : String) :
    packageIdOf db name = (packageOf db name).map (·.id) :=
  rfl

/-- The keys and checks of the tables of packages and versions. -/
structure Constraints (db : Db) : Prop where
  packages : db.packages.Identity Package.id
  names : (db.packages.rows.map fun p => p.name).Nodup
  versions : db.versions.Identity Version.id
  checks : ∀ p ∈ db.packages.rows, p.check = true
  latest : ∀ p ∈ db.packages.rows, ∀ v, p.distTagLatestVersion = some v →
    ∃ row ∈ db.versions.rows, row.id = v

theorem constraints_empty : Constraints .empty where
  packages := Table.identity_empty
  names := List.nodup_nil
  versions := Table.identity_empty
  checks := nofun
  latest := nofun

/-- The caches on a database agree with its rows. -/
structure Fits (db : Db) (w : World C) : Prop where
  conn : w.conn = db
  packageIds : ∀ name id, w.packageIdEntry name = some id → packageIdOf db name = id
  packageData : ∀ name p, w.packageDataEntry name = some p → packageOf db name = some p
  versionIds : ∀ key id, w.versionIdEntry key = some id → versionIdOf db key = some id

/-- The caches agree with the tables, and the tables are in their constraints. -/
structure RowsInv (w : World C) : Prop where
  constraints : Constraints w.conn
  fits : Fits w.conn w

theorem rowsInv_uncached (hC : C.Lawful) {db : Db} (h : Constraints db) : RowsInv (uncached C db) where
  constraints := h
  fits :=
    { conn := rfl
      packageIds name id hentry := by
        rw [World.packageIdEntry, uncached, RelationalDbAccessor.new, hC.packageId.peek_new] at hentry
        cases hentry
      packageData name p hentry := by
        rw [World.packageDataEntry, uncached, RelationalDbAccessor.new, hC.packageData.peek_new]
          at hentry
        cases hentry
      versionIds key id hentry := by
        rw [World.versionIdEntry, uncached, RelationalDbAccessor.new, hC.versionId.peek_new] at hentry
        cases hentry }

section Getters

variable {db : Db} {F : Panic → Prop} (hC : C.Lawful)

include hC

theorem cachedPackageId_fits (name : String) :
    Hoare.Triple (Fits db) (cachedPackageId (C := C) name)
      (fun found w => Fits db w ∧ ∀ id, found = some id → packageIdOf db name = id) F := by
  intro w hw
  change Fits db (w.withPackageIds _) ∧ ∀ id, (C.packageId.get _ name).1 = some id → _
  rw [hC.packageId.get_fst]
  refine ⟨{ hw with packageIds := fun name' id hentry => hw.packageIds name' id ?_ },
    fun id hentry => hw.packageIds name id hentry⟩
  rwa [World.packageIdEntry, World.withPackageIds, hC.packageId.peek_get] at hentry

theorem cachedPackageData_fits (name : String) :
    Hoare.Triple (Fits db) (cachedPackageData (C := C) name)
      (fun found w => Fits db w ∧ ∀ p, found = some p → packageOf db name = some p) F := by
  intro w hw
  change Fits db (w.withPackageData _) ∧ ∀ p, (C.packageData.get _ name).1 = some p → _
  rw [hC.packageData.get_fst]
  refine ⟨{ hw with packageData := fun name' p hentry => hw.packageData name' p ?_ },
    fun p hentry => hw.packageData name p hentry⟩
  rwa [World.packageDataEntry, World.withPackageData, hC.packageData.peek_get] at hentry

theorem cachedVersionId_fits (packageId : ℤ) (v : Semver) :
    Hoare.Triple (Fits db) (cachedVersionId (C := C) packageId v)
      (fun found w => Fits db w ∧ ∀ id, found = some id →
        versionIdOf db (packageId, v) = some id) F := by
  intro w hw
  change Fits db (w.withVersionIds _) ∧ ∀ id, (C.versionId.get _ (packageId, v)).1 = some id → _
  rw [hC.versionId.get_fst]
  refine ⟨{ hw with versionIds := fun key id hentry => hw.versionIds key id ?_ },
    fun id hentry => hw.versionIds (packageId, v) id hentry⟩
  rwa [World.versionIdEntry, World.withVersionIds, hC.versionId.peek_get] at hentry

theorem promotePackageData_fits (name : String) :
    Hoare.Triple (Fits db) (promotePackageData (C := C) name) (fun _ => Fits db) F := by
  intro w hw
  refine { hw with packageData := fun name' p hentry => hw.packageData name' p ?_ }
  change C.packageData.peek (C.packageData.promote _ _) _ = _ at hentry
  rwa [hC.packageData.peek_promote] at hentry

theorem putPackageId_fits {name : String} {id : Option ℤ} (h : packageIdOf db name = id) :
    Hoare.Triple (Fits db) (putPackageId (C := C) name id) (fun _ => Fits db) F := by
  intro w hw
  refine { hw with packageIds := fun name' id' hentry => ?_ }
  rcases hC.packageId.of_peek_put hentry with ⟨rfl, rfl⟩ | ⟨-, hentry⟩
  · exact h
  · exact hw.packageIds name' id' hentry

theorem putPackageData_fits (E : Env) {p : Package} (h : packageOf db p.name = some p) :
    Hoare.Triple (Fits db) (putPackageData (C := C) E p) (fun _ => Fits db) F := by
  intro w hw
  refine { hw with packageData := fun name' p' hentry => ?_ }
  rcases hC.packageData.of_peek_putWithCost hentry with ⟨rfl, rfl⟩ | ⟨-, hentry⟩
  · exact h
  · exact hw.packageData name' p' hentry

theorem putVersionId_fits {packageId : ℤ} {v : Semver} {id : ℤ}
    (h : versionIdOf db (packageId, v) = some id) :
    Hoare.Triple (Fits db) (putVersionId (C := C) packageId v id) (fun _ => Fits db) F := by
  intro w hw
  refine { hw with versionIds := fun key id' hentry => ?_ }
  rcases hC.versionId.of_peek_put hentry with ⟨rfl, rfl⟩ | ⟨-, hentry⟩
  · exact h
  · exact hw.versionIds key id' hentry

omit hC in
/-- A row that a statement expects to find. -/
theorem query_expect_fits {ρ : Type} {p : Panic} {find : Db → Option ρ} (h : find db = none → F p) :
    Hoare.Triple (Fits (C := C) db) (query (do expect p (find (← get))))
      (fun r w => Fits db w ∧ find db = some r) F := by
  intro w hw
  obtain rfl : w.conn = db := hw.conn
  rw [query, Hoare.bind_apply, Hoare.get_apply]
  dsimp only
  cases hfind : find w.conn with
  | none => exact h hfind
  | some r => exact ⟨hw, rfl⟩

theorem getPackageByName_fits (E : Env) (hdb : Constraints db) {name : String}
    (hF : packageOf db name = none → F .packageDoesNotExist ∧ F .errorGettingPackageByName) :
    Hoare.Triple (Fits db) (getPackageByName (C := C) E name)
      (fun p w => Fits db w ∧ packageOf db name = some p) F := by
  have hid : ∀ p, packageOf db name = some p → packageIdOf db name = some p.id := by
    intro p hp
    rw [packageIdOf_eq, hp, Option.map_some]
  have hself : ∀ p, packageOf db name = some p → packageOf db p.name = some p := by
    intro p hp
    have hname := Rows.key_of_find hp
    rw [hname, hp]
  refine Hoare.Triple.bind (cachedPackageData_fits hC name)
    fun found => Hoare.Triple.of_and fun h => ?_
  cases found with
  | some p =>
    have hp := h p rfl
    refine Hoare.Triple.bind (putPackageId_fits hC (hid p hp)) fun _ => ?_
    exact Hoare.Triple.pure fun w hw => ⟨hw, hp⟩
  | none =>
    refine Hoare.Triple.bind (cachedPackageId_fits hC name)
      fun found => Hoare.Triple.of_and fun h => ?_
    cases found with
    | some packageId =>
      have hcached := h packageId rfl
      cases hrow : packageOf db name with
      | none =>
        rw [packageIdOf_eq, hrow] at hcached
        rw [← hcached]
        exact Hoare.Triple.throw fun _ _ => (hF hrow).1
      | some p =>
        rw [hid p hrow] at hcached
        rw [← hcached]
        have hfind : Rows.find Package.id db.packages.rows p.id = some p :=
          Rows.find_of_mem hdb.packages.nodup (Rows.mem_of_find hrow)
        have hexpect : Hoare.Triple (Fits (C := C) db) (expect .packageDoesNotExist (some p.id))
            (fun id w => Fits db w ∧ id = p.id) F := fun w hw => ⟨hw, rfl⟩
        refine Hoare.Triple.bind hexpect fun id => Hoare.Triple.of_and fun hpid => ?_
        subst hpid
        have hnone : Rows.find Package.id db.packages.rows p.id = none →
            F (.packageWithIdNotFound p.id) := by
          rw [hfind]
          exact nofun
        refine Hoare.Triple.bind (query_expect_fits hnone) fun p' => Hoare.Triple.of_and fun hp' => ?_
        rw [hfind] at hp'
        obtain rfl := Option.some.inj hp'
        refine Hoare.Triple.bind (putPackageData_fits hC E (hself p hrow)) fun _ => ?_
        exact Hoare.Triple.pure fun w hw => ⟨hw, rfl⟩
    | none =>
      refine Hoare.Triple.bind (query_expect_fits fun hnone => (hF hnone).2)
        fun p => Hoare.Triple.of_and fun hp => ?_
      refine Hoare.Triple.bind (putPackageData_fits hC E (hself p hp)) fun _ => ?_
      refine Hoare.Triple.bind (putPackageId_fits hC (hid p hp)) fun _ => ?_
      exact Hoare.Triple.pure fun w hw => ⟨hw, hp⟩

theorem maybeGetPackageIdByName_fits (name : String) :
    Hoare.Triple (Fits db) (maybeGetPackageIdByName (C := C) name)
      (fun id w => Fits db w ∧ id = packageIdOf db name) F := by
  refine Hoare.Triple.bind (cachedPackageId_fits hC name)
    fun found => Hoare.Triple.of_and fun h => ?_
  cases found with
  | some packageId => exact Hoare.Triple.pure fun w hw => ⟨hw, (h packageId rfl).symm⟩
  | none =>
    have hquery : Hoare.Triple (Fits (C := C) db) (query (Packages.maybeGetPackageIdByName name))
        (fun id w => Fits db w ∧ packageIdOf db name = id) F := by
      intro w hw
      obtain rfl : w.conn = db := hw.conn
      exact ⟨hw, rfl⟩
    refine Hoare.Triple.bind hquery fun id => Hoare.Triple.of_and fun h => ?_
    refine Hoare.Triple.bind (putPackageId_fits hC h) fun _ => ?_
    exact Hoare.Triple.pure fun w hw => ⟨hw, h.symm⟩

theorem getPackageIdByName_fits {name : String} (hF : F .packageShouldExist) :
    Hoare.Triple (Fits db) (getPackageIdByName (C := C) name)
      (fun id w => Fits db w ∧ packageIdOf db name = some id) F := by
  refine Hoare.Triple.bind (maybeGetPackageIdByName_fits hC name)
    fun found => Hoare.Triple.of_and fun hfound => ?_
  cases found with
  | none => exact Hoare.Triple.throw fun _ _ => hF
  | some id => exact Hoare.Triple.pure fun w hw => ⟨hw, hfound.symm⟩

theorem getVersionIdBySemver_fits {packageId : ℤ} {v : Semver}
    (hF : versionIdOf db (packageId, v) = none → F .errorGettingVersionIdBySemver) :
    Hoare.Triple (Fits db) (getVersionIdBySemver (C := C) packageId v)
      (fun id w => Fits db w ∧ versionIdOf db (packageId, v) = some id) F := by
  refine Hoare.Triple.bind (cachedVersionId_fits hC packageId v)
    fun found => Hoare.Triple.of_and fun h => ?_
  cases found with
  | some id => exact Hoare.Triple.pure fun w hw => ⟨hw, h id rfl⟩
  | none =>
    have hquery : Hoare.Triple (Fits (C := C) db) (query (Versions.getVersionIdBySemver packageId v))
        (fun id w => Fits db w ∧ versionIdOf db (packageId, v) = some id) F := by
      intro w hw
      obtain rfl : w.conn = db := hw.conn
      rw [versionIdOf] at hF ⊢
      rw [query, Versions.getVersionIdBySemver, Hoare.bind_apply, Hoare.get_apply]
      dsimp only
      cases hfind : Rows.find versionKey w.conn.versions.rows (packageId, v) with
      | some row => exact ⟨hw, rfl⟩
      | none => exact hF (by rw [hfind]; rfl)
    refine Hoare.Triple.bind hquery fun id => Hoare.Triple.of_and fun h => ?_
    refine Hoare.Triple.bind (putVersionId_fits hC h) fun _ => ?_
    exact Hoare.Triple.pure fun w hw => ⟨hw, h⟩

end Getters

end NpmFollower.RelationalDbBuilder
