import NpmFollower.RelationalDbBuilder.DependencyCache

/-! # The invariant of the accessor

The caches are right about the tables: a cached id is the id of the row, and a
name that is cached without an id has no row. So an answer from a cache is the
answer of the table, and a lookup panics only where there is no row.
-/

namespace NpmFollower.RelationalDbBuilder

open Std PostgresDb RelationalDbAccessor

variable {C : LruCaches}

abbrev versionKey (v : Version) : ℤ × Semver := (v.packageId, v.semver)

def packageIdOf (db : Db) (name : String) : Option ℤ :=
  (Rows.find (fun p => p.name) db.packages.rows name).map (·.id)

def versionIdOf (db : Db) (key : ℤ × Semver) : Option ℤ :=
  (Rows.find versionKey db.versions.rows key).map (·.id)

namespace World

variable (w : World C)

def packageIdEntry (name : String) : Option (Option ℤ) :=
  C.packageId.peek w.accessor.packageIdCache name

def packageDataEntry (name : String) : Option Package :=
  C.packageData.peek w.accessor.packageDataCache name

def versionIdEntry (key : ℤ × Semver) : Option ℤ :=
  C.versionId.peek w.accessor.versionIdCache key

structure Inv : Prop where
  deps : w.DepsInv
  packages : w.conn.packages.Identity Package.id
  versions : w.conn.versions.Identity Version.id
  packageIds : ∀ name id, w.packageIdEntry name = some id → packageIdOf w.conn name = id
  packageData : ∀ name p, w.packageDataEntry name = some p →
    p.name = name ∧ packageIdOf w.conn name = some p.id
  versionIds : ∀ key id, w.versionIdEntry key = some id → versionIdOf w.conn key = some id
  versionDeps : ∀ v ∈ w.conn.versions.rows, ∀ t, ∀ i ∈ v.dependencies t,
    ∃ d ∈ w.conn.dependencies.rows, d.id = i

def withPackageIds (cache : C.packageId.State) : World C :=
  { w with accessor := { w.accessor with packageIdCache := cache } }

def withPackageData (cache : C.packageData.State) : World C :=
  { w with accessor := { w.accessor with packageDataCache := cache } }

def withVersionIds (cache : C.versionId.State) : World C :=
  { w with accessor := { w.accessor with versionIdCache := cache } }

end World

/-- Nothing but the caches of ids and packages has changed. -/
structure Keeps (w₀ w : World C) : Prop where
  inv : w.Inv
  conn : w.conn = w₀.conn
  depState : w.depState = w₀.depState

theorem World.Inv.keeps {w : World C} (h : w.Inv) : Keeps w w := ⟨h, rfl, rfl⟩

section Caches

variable {w₀ w : World C} (h : Keeps w₀ w)

theorem World.DepsInv.of_eq {w w' : World C} (h : w.DepsInv) (hdeps : w'.conn.dependencies = w.conn.dependencies)
    (hentry : w'.depEntry = w.depEntry) (hstate : w'.depState = w.depState) : w'.DepsInv where
  identity := hdeps ▸ h.identity
  digests := hdeps ▸ h.digests
  coherent := hstate ▸ h.coherent
  ids := by
    rw [hdeps, hentry]
    exact h.ids

include h

namespace Keeps

theorem withPackageIds {cache : C.packageId.State}
    (hcache : ∀ name id, C.packageId.peek cache name = some id → packageIdOf w₀.conn name = id) :
    Keeps w₀ (w.withPackageIds cache) where
  inv :=
    { deps := h.inv.deps.of_eq rfl rfl rfl
      packages := h.inv.packages
      versions := h.inv.versions
      packageIds name id hentry := (congrArg (packageIdOf · name) h.conn).trans (hcache name id hentry)
      packageData := h.inv.packageData
      versionIds := h.inv.versionIds
      versionDeps := h.inv.versionDeps }
  conn := h.conn
  depState := h.depState

theorem withPackageData {cache : C.packageData.State}
    (hcache : ∀ name p, C.packageData.peek cache name = some p →
      p.name = name ∧ packageIdOf w₀.conn name = some p.id) :
    Keeps w₀ (w.withPackageData cache) where
  inv :=
    { deps := h.inv.deps.of_eq rfl rfl rfl
      packages := h.inv.packages
      versions := h.inv.versions
      packageIds := h.inv.packageIds
      packageData name p hentry := by
        rw [show (w.withPackageData cache).conn = w₀.conn from h.conn]
        exact hcache name p hentry
      versionIds := h.inv.versionIds
      versionDeps := h.inv.versionDeps }
  conn := h.conn
  depState := h.depState

theorem withVersionIds {cache : C.versionId.State}
    (hcache : ∀ key id, C.versionId.peek cache key = some id → versionIdOf w₀.conn key = some id) :
    Keeps w₀ (w.withVersionIds cache) where
  inv :=
    { deps := h.inv.deps.of_eq rfl rfl rfl
      packages := h.inv.packages
      versions := h.inv.versions
      packageIds := h.inv.packageIds
      packageData := h.inv.packageData
      versionIds key id hentry := by
        rw [show (w.withVersionIds cache).conn = w₀.conn from h.conn]
        exact hcache key id hentry
      versionDeps := h.inv.versionDeps }
  conn := h.conn
  depState := h.depState

theorem packageIds {name : String} {id : Option ℤ} (hentry : w.packageIdEntry name = some id) :
    packageIdOf w₀.conn name = id := h.conn ▸ h.inv.packageIds name id hentry

theorem packageData {name : String} {p : Package} (hentry : w.packageDataEntry name = some p) :
    p.name = name ∧ packageIdOf w₀.conn name = some p.id := h.conn ▸ h.inv.packageData name p hentry

theorem versionIds {key : ℤ × Semver} {id : ℤ} (hentry : w.versionIdEntry key = some id) :
    versionIdOf w₀.conn key = some id := h.conn ▸ h.inv.versionIds key id hentry

end Keeps

end Caches

theorem exists_package_of_packageIdOf {db : Db} {name : String} {id : ℤ}
    (h : packageIdOf db name = some id) : ∃ p ∈ db.packages.rows, p.name = name ∧ p.id = id := by
  obtain ⟨p, hp, rfl⟩ := Option.map_eq_some_iff.mp h
  have hname := Rows.key_of_find hp
  exact ⟨p, Rows.mem_of_find hp, hname, rfl⟩

theorem exists_version_of_versionIdOf {db : Db} {key : ℤ × Semver} {id : ℤ}
    (h : versionIdOf db key = some id) : ∃ v ∈ db.versions.rows, versionKey v = key ∧ v.id = id := by
  obtain ⟨v, hv, rfl⟩ := Option.map_eq_some_iff.mp h
  exact ⟨v, Rows.mem_of_find hv, Rows.key_of_find hv, rfl⟩

section Reads

variable (hC : C.Lawful) {w₀ : World C} {F : Panic → Prop}

theorem query_triple {α : Type} {q : Query α} {Q : α → Prop}
    (h : match q w₀.conn with
      | .ok (a, conn) => conn = w₀.conn ∧ Q a
      | .error e => F e) :
    Hoare.Triple (Keeps w₀) (query q) (fun a w => Keeps w₀ w ∧ Q a) F := by
  intro w hw
  rw [← hw.conn] at h
  unfold query
  cases hq : q w.conn with
  | ok r =>
    rw [hq] at h
    obtain ⟨a, conn⟩ := r
    obtain ⟨rfl, ha⟩ := h
    exact ⟨hw, ha⟩
  | error e =>
    rw [hq] at h
    exact h

theorem expect_triple {α : Type} {P : World C → Prop} {p : Panic} {o : Option α}
    (h : o = none → F p) : Hoare.Triple P (expect p o) (fun a w => P w ∧ o = some a) F := by
  intro w hw
  cases o with
  | some a => exact ⟨hw, rfl⟩
  | none => exact h rfl

/-- A row that a statement expects to find. -/
theorem query_expect_triple {ρ : Type} {p : Panic} {find : Db → Option ρ}
    (h : find w₀.conn = none → F p) :
    Hoare.Triple (Keeps w₀) (query (do expect p (find (← get))))
      (fun r w => Keeps w₀ w ∧ find w₀.conn = some r) F := by
  refine query_triple ?_
  rw [Hoare.bind_apply, Hoare.get_apply]
  dsimp only
  cases hfind : find w₀.conn with
  | some r => exact ⟨rfl, rfl⟩
  | none => exact h hfind

theorem getPackage_triple {id : ℤ}
    (h : Rows.find Package.id w₀.conn.packages.rows id = none → F (.packageWithIdNotFound id)) :
    Hoare.Triple (Keeps w₀) (query (Packages.getPackage id)) (fun p w => Keeps w₀ w ∧
      Rows.find Package.id w₀.conn.packages.rows id = some p) F :=
  query_expect_triple h

theorem getPackageByName_query_triple {name : String}
    (h : Rows.find (fun p => p.name) w₀.conn.packages.rows name = none →
      F .errorGettingPackageByName) :
    Hoare.Triple (Keeps w₀) (query (Packages.getPackageByName name)) (fun p w => Keeps w₀ w ∧
      Rows.find (fun p => p.name) w₀.conn.packages.rows name = some p) F :=
  query_expect_triple h

theorem getVersionById_triple {id : ℤ}
    (h : Rows.find Version.id w₀.conn.versions.rows id = none →
      F (.database "Error getting package")) :
    Hoare.Triple (Keeps w₀) (getVersionById id) (fun v w => Keeps w₀ w ∧
      Rows.find Version.id w₀.conn.versions.rows id = some v) F :=
  query_expect_triple h

theorem getDependencyById_triple {id : ℤ}
    (h : Rows.find Dependency.id w₀.conn.dependencies.rows id = none →
      F (.database "Error getting dep by id")) :
    Hoare.Triple (Keeps w₀) (getDependencyById id) (fun d w => Keeps w₀ w ∧
      Rows.find Dependency.id w₀.conn.dependencies.rows id = some d) F :=
  query_expect_triple h

include hC

theorem cachedPackageId_triple (name : String) :
    Hoare.Triple (Keeps w₀) (cachedPackageId name)
      (fun found w => Keeps w₀ w ∧ ∀ id, found = some id → packageIdOf w₀.conn name = id) F := by
  intro w hw
  change Keeps w₀ (w.withPackageIds _) ∧ ∀ id, (C.packageId.get _ name).1 = some id → _
  rw [hC.packageId.get_fst]
  refine ⟨hw.withPackageIds fun name' id hentry => ?_, fun id hentry => hw.packageIds hentry⟩
  rw [hC.packageId.peek_get] at hentry
  exact hw.packageIds hentry

theorem cachedPackageData_triple (name : String) :
    Hoare.Triple (Keeps w₀) (cachedPackageData name)
      (fun found w => Keeps w₀ w ∧ ∀ p, found = some p →
        p.name = name ∧ packageIdOf w₀.conn name = some p.id) F := by
  intro w hw
  change Keeps w₀ (w.withPackageData _) ∧ ∀ p, (C.packageData.get _ name).1 = some p → _
  rw [hC.packageData.get_fst]
  refine ⟨hw.withPackageData fun name' p hentry => ?_, fun p hentry => hw.packageData hentry⟩
  rw [hC.packageData.peek_get] at hentry
  exact hw.packageData hentry

theorem popPackageData_triple (name : String) :
    Hoare.Triple (Keeps w₀) (popPackageData name)
      (fun found w => Keeps w₀ w ∧ ∀ p, found = some p →
        p.name = name ∧ packageIdOf w₀.conn name = some p.id) F := by
  intro w hw
  change Keeps w₀ (w.withPackageData _) ∧ ∀ p, (C.packageData.pop _ name).1 = some p → _
  rw [hC.packageData.pop_fst]
  refine ⟨hw.withPackageData fun name' p hentry => ?_, fun p hentry => hw.packageData hentry⟩
  rw [hC.packageData.peek_pop] at hentry
  split_ifs at hentry
  exact hw.packageData hentry

theorem promotePackageData_triple (name : String) :
    Hoare.Triple (Keeps w₀) (promotePackageData name) (fun _ => Keeps w₀) F := by
  intro w hw
  refine hw.withPackageData fun name' p hentry => ?_
  rw [hC.packageData.peek_promote] at hentry
  exact hw.packageData hentry

theorem cachedVersionId_triple (packageId : ℤ) (v : Semver) :
    Hoare.Triple (Keeps w₀) (cachedVersionId packageId v)
      (fun found w => Keeps w₀ w ∧ ∀ id, found = some id →
        versionIdOf w₀.conn (packageId, v) = some id) F := by
  intro w hw
  change Keeps w₀ (w.withVersionIds _) ∧ ∀ id, (C.versionId.get _ (packageId, v)).1 = some id → _
  rw [hC.versionId.get_fst]
  refine ⟨hw.withVersionIds fun key id hentry => ?_, fun id hentry => hw.versionIds hentry⟩
  rw [hC.versionId.peek_get] at hentry
  exact hw.versionIds hentry

theorem putPackageId_triple {name : String} {id : Option ℤ} (h : packageIdOf w₀.conn name = id) :
    Hoare.Triple (Keeps w₀) (putPackageId name id) (fun _ => Keeps w₀) F := by
  intro w hw
  refine hw.withPackageIds fun name' id' hentry => ?_
  rcases hC.packageId.of_peek_put hentry with ⟨rfl, rfl⟩ | ⟨-, hentry⟩
  · exact h
  · exact hw.packageIds hentry

theorem putPackageData_triple (E : Env) {p : Package} (h : packageIdOf w₀.conn p.name = some p.id) :
    Hoare.Triple (Keeps w₀) (putPackageData E p) (fun _ => Keeps w₀) F := by
  intro w hw
  refine hw.withPackageData fun name' p' hentry => ?_
  rcases hC.packageData.of_peek_putWithCost hentry with ⟨rfl, rfl⟩ | ⟨-, hentry⟩
  · exact ⟨rfl, h⟩
  · exact hw.packageData hentry

theorem putVersionId_triple {packageId : ℤ} {v : Semver} {id : ℤ}
    (h : versionIdOf w₀.conn (packageId, v) = some id) :
    Hoare.Triple (Keeps w₀) (putVersionId packageId v id) (fun _ => Keeps w₀) F := by
  intro w hw
  refine hw.withVersionIds fun key id' hentry => ?_
  rcases hC.versionId.of_peek_put hentry with ⟨rfl, rfl⟩ | ⟨-, hentry⟩
  · exact h
  · exact hw.versionIds hentry

theorem maybeGetPackageIdByName_triple (name : String) :
    Hoare.Triple (Keeps w₀) (maybeGetPackageIdByName name)
      (fun id w => Keeps w₀ w ∧ packageIdOf w₀.conn name = id) F := by
  refine Hoare.Triple.bind (cachedPackageId_triple hC name) fun found => Hoare.Triple.of_and fun h => ?_
  cases found with
  | some id => exact Hoare.Triple.pure fun w hw => ⟨hw, h id rfl⟩
  | none =>
    refine Hoare.Triple.bind (query_triple (Q := fun id => packageIdOf w₀.conn name = id) ⟨rfl, rfl⟩)
      fun id => Hoare.Triple.of_and fun h => ?_
    refine Hoare.Triple.bind (putPackageId_triple hC h) fun _ => ?_
    exact Hoare.Triple.pure fun w hw => ⟨hw, h⟩

theorem getPackageIdByName_triple {name : String}
    (hF : packageIdOf w₀.conn name = none → F .packageShouldExist) :
    Hoare.Triple (Keeps w₀) (getPackageIdByName name)
      (fun id w => Keeps w₀ w ∧ packageIdOf w₀.conn name = some id) F := by
  refine Hoare.Triple.bind (maybeGetPackageIdByName_triple hC name)
    fun found => Hoare.Triple.of_and fun h => ?_
  cases found with
  | some id => exact Hoare.Triple.pure fun w hw => ⟨hw, h⟩
  | none => exact Hoare.Triple.throw fun _ _ => hF h

theorem getVersionIdBySemver_triple {packageId : ℤ} {v : Semver}
    (hF : versionIdOf w₀.conn (packageId, v) = none → F .errorGettingVersionIdBySemver) :
    Hoare.Triple (Keeps w₀) (getVersionIdBySemver packageId v)
      (fun id w => Keeps w₀ w ∧ versionIdOf w₀.conn (packageId, v) = some id) F := by
  refine Hoare.Triple.bind (cachedVersionId_triple hC packageId v)
    fun found => Hoare.Triple.of_and fun h => ?_
  cases found with
  | some id => exact Hoare.Triple.pure fun w hw => ⟨hw, h id rfl⟩
  | none =>
    refine Hoare.Triple.bind
      (query_triple (Q := fun id => versionIdOf w₀.conn (packageId, v) = some id) ?_)
      fun id => Hoare.Triple.of_and fun h => ?_
    · rw [versionIdOf] at hF ⊢
      rw [Versions.getVersionIdBySemver, Hoare.bind_apply, Hoare.get_apply]
      dsimp only
      cases hfind : Rows.find versionKey w₀.conn.versions.rows (packageId, v) with
      | some row => exact ⟨rfl, rfl⟩
      | none => exact hF (by rw [hfind]; rfl)
    · refine Hoare.Triple.bind (putVersionId_triple hC h) fun _ => ?_
      exact Hoare.Triple.pure fun w hw => ⟨hw, h⟩

theorem getPackageByName_triple (E : Env) (hw₀ : w₀.Inv) {name : String}
    (hF : packageIdOf w₀.conn name = none →
      F .packageDoesNotExist ∧ F .errorGettingPackageByName) :
    Hoare.Triple (Keeps w₀) (getPackageByName E name)
      (fun p w => Keeps w₀ w ∧ p.name = name ∧ packageIdOf w₀.conn name = some p.id) F := by
  refine Hoare.Triple.bind (cachedPackageData_triple hC name)
    fun found => Hoare.Triple.of_and fun h => ?_
  cases found with
  | some p =>
    obtain ⟨hname, hid⟩ := h p rfl
    refine Hoare.Triple.bind (putPackageId_triple hC hid) fun _ => ?_
    exact Hoare.Triple.pure fun w hw => ⟨hw, hname, hid⟩
  | none =>
    refine Hoare.Triple.bind (cachedPackageId_triple hC name)
      fun found => Hoare.Triple.of_and fun h => ?_
    cases found with
    | some packageId =>
      have hid := h packageId rfl
      cases packageId with
      | none => exact Hoare.Triple.throw fun _ _ => (hF hid).1
      | some id =>
        obtain ⟨row, hrow, hname, hrowid⟩ := exists_package_of_packageIdOf hid
        have hfind : Rows.find Package.id w₀.conn.packages.rows id = some row :=
          hrowid ▸ Rows.find_of_mem hw₀.packages.nodup hrow
        refine Hoare.Triple.bind (expect_triple (by simp)) fun id' => Hoare.Triple.of_and fun hid' => ?_
        cases hid'
        refine Hoare.Triple.bind (getPackage_triple fun hnone => by rw [hfind] at hnone; cases hnone)
          fun p => Hoare.Triple.of_and fun hp => ?_
        cases hfind.symm.trans hp
        have hrow : packageIdOf w₀.conn row.name = some row.id := by rw [hname, hrowid, hid]
        refine Hoare.Triple.bind (putPackageData_triple hC E hrow) fun _ => ?_
        exact Hoare.Triple.pure fun w hw => ⟨hw, hname, by rw [hid, hrowid]⟩
    | none =>
      refine Hoare.Triple.bind (getPackageByName_query_triple fun hnone =>
        (hF (by rw [packageIdOf, hnone]; rfl)).2) fun p => Hoare.Triple.of_and fun hp => ?_
      have hname : p.name = name := by
        have hname := Rows.key_of_find hp
        exact hname
      have hid : packageIdOf w₀.conn name = some p.id := by rw [packageIdOf, hp]; rfl
      refine Hoare.Triple.bind (putPackageData_triple hC E (hname ▸ hid)) fun _ => ?_
      refine Hoare.Triple.bind (putPackageId_triple hC hid) fun _ => ?_
      exact Hoare.Triple.pure fun w hw => ⟨hw, hname, hid⟩

end Reads

end NpmFollower.RelationalDbBuilder
