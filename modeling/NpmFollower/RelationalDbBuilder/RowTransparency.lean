import NpmFollower.RelationalDbBuilder.PackageWrites

/-! # The caches of rows are transparent

After any calls on the accessor a getter returns what the tables hold, whether
its answer was cached, evicted or never read.
-/

namespace NpmFollower.RelationalDbBuilder

open Std PostgresDb RelationalDbAccessor

variable {C : LruCaches} (E : Env)

/-- The calls on packages and versions. An update is the difference between the current row and
the new one, and the patch of the dependencies is for the package of that name. -/
inductive RowsOp where
  | insertNewPackage (newPackage : NewPackage)
  | updatePackage (newPackage : NewPackage)
  | getPackageByName (name : String)
  | maybeGetPackageIdByName (name : String)
  | insertNewVersion (newVersion : NewVersion)
  | getVersionIdBySemver (packageId : ℤ) (v : Semver)
  | updateDepsMissingPack (name : String)

inductive Returned where
  | nothing
  | package (p : Package)
  | packageId (id : Option ℤ)
  | versionId (id : ℤ)

namespace RowsOp

def run : RowsOp → Run C Returned
  | insertNewPackage newPackage => do
    RelationalDbAccessor.insertNewPackage E newPackage
    return .nothing
  | updatePackage newPackage => do
    let p ← expect .packageShouldExist (packageOf (← get).conn newPackage.name)
    RelationalDbAccessor.updatePackage E p.id newPackage.name (p.diff newPackage)
    return .nothing
  | getPackageByName name => do
    let p ← RelationalDbAccessor.getPackageByName E name
    return .package p
  | maybeGetPackageIdByName name => do
    let id ← RelationalDbAccessor.maybeGetPackageIdByName name
    return .packageId id
  | insertNewVersion newVersion => do
    RelationalDbAccessor.insertNewVersion newVersion
    return .nothing
  | getVersionIdBySemver packageId v => do
    let id ← RelationalDbAccessor.getVersionIdBySemver packageId v
    return .versionId id
  | updateDepsMissingPack name => do
    let id ← expect .packageShouldExist (packageIdOf (← get).conn name)
    RelationalDbAccessor.updateDepsMissingPack E name id
    return .nothing

/-- What the tables hold for a getter that is called where its row exists. -/
def row (db : Db) : RowsOp → Option Returned
  | getPackageByName name => (packageOf db name).map .package
  | maybeGetPackageIdByName name => some (.packageId (packageIdOf db name))
  | getVersionIdBySemver packageId v => (versionIdOf db (packageId, v)).map .versionId
  | _ => none

end RowsOp

def runRowsOps (ops : List RowsOp) : Run C (List Returned) := ops.mapM (RowsOp.run E)

/-- The table and the cache after an update of the current row. -/
def UpdatesAlike (w : World C) : Prop :=
  ∀ p new w', packageOf w.conn new.name = some p →
    RowsOp.run E (.updatePackage new) w = .ok (.nothing, w') →
      packageOf w'.conn new.name = some (p.applyDiff (p.diff new)) ∧
        ∀ q, w'.packageDataEntry new.name = some q → q = p.applyDiff (p.diff new)

/-- Every getter returns the row. -/
def GetsRows (w : World C) : Prop :=
  ∀ op r, RowsOp.row w.conn op = some r → ∃ w', RowsOp.run E op w = .ok (r, w')

theorem run_updatePackage {new : NewPackage} {w w' : World C} {r : Returned}
    (hrun : RowsOp.run E (.updatePackage new) w = .ok (r, w')) :
    ∃ p, packageOf w.conn new.name = some p ∧
      RelationalDbAccessor.updatePackage E p.id new.name (p.diff new) w = .ok ((), w') := by
  rw [RowsOp.run, Hoare.bind_apply, Hoare.get_apply] at hrun
  dsimp only at hrun
  rw [Hoare.bind_apply, expect_apply] at hrun
  cases hp : packageOf w.conn new.name with
  | none =>
    rw [hp] at hrun
    cases hrun
  | some p =>
    rw [hp, Option.elim_some] at hrun
    dsimp only at hrun
    rw [Hoare.bind_apply] at hrun
    refine ⟨p, rfl, ?_⟩
    cases hupdate : RelationalDbAccessor.updatePackage E p.id new.name (p.diff new) w with
    | error e =>
      rw [hupdate] at hrun
      cases hrun
    | ok r =>
      rw [hupdate] at hrun
      cases hrun
      rfl

theorem run_updateDepsMissingPack {name : String} {w w' : World C} {r : Returned}
    (hrun : RowsOp.run E (.updateDepsMissingPack name) w = .ok (r, w')) :
    ∃ id, packageIdOf w.conn name = some id ∧
      RelationalDbAccessor.updateDepsMissingPack E name id w = .ok ((), w') := by
  rw [RowsOp.run, Hoare.bind_apply, Hoare.get_apply] at hrun
  dsimp only at hrun
  rw [Hoare.bind_apply, expect_apply] at hrun
  cases hid : packageIdOf w.conn name with
  | none =>
    rw [hid] at hrun
    cases hrun
  | some id =>
    rw [hid, Option.elim_some] at hrun
    dsimp only at hrun
    rw [Hoare.bind_apply] at hrun
    refine ⟨id, rfl, ?_⟩
    cases hpatch : RelationalDbAccessor.updateDepsMissingPack E name id w with
    | error e =>
      rw [hpatch] at hrun
      cases hrun
    | ok r =>
      rw [hpatch] at hrun
      cases hrun
      rfl

/-- What holds after every successful run is preserved. -/
theorem preserves_of_ok {α : Type} {I : World C → Prop} {x : Run C α}
    (h : ∀ w a w', I w → x w = .ok (a, w') → I w') : Hoare.Preserves I x := by
  intro w hw
  cases hx : x w with
  | error e => trivial
  | ok r => exact h w r.1 r.2 hw hx

section

variable (hC : C.Lawful)

include hC

theorem RowsInv.update {w w' : World C} (h : RowsInv w) {p : Package} {new : NewPackage}
    (hp : packageOf w.conn new.name = some p)
    (hrun : RelationalDbAccessor.updatePackage E p.id new.name (p.diff new) w = .ok ((), w')) :
    RowsInv w' ∧ packageOf w'.conn new.name = some (p.applyDiff (p.diff new)) := by
  obtain ⟨haccepted, hfits⟩ := (updatePackage_fits h.constraints hC E hp
    (F := fun _ => True) fun _ => trivial).of_ok h.fits hrun
  refine ⟨.of_fits (h.constraints.update (Rows.mem_of_find hp) haccepted) hfits, ?_⟩
  rw [hfits.conn]
  exact packageOf_update_self hp

theorem RowsInv.patch {w w' : World C} (h : RowsInv w) {name : String} {id : ℤ}
    (hid : packageIdOf w.conn name = some id)
    (hrun : RelationalDbAccessor.updateDepsMissingPack E name id w = .ok ((), w')) : RowsInv w' := by
  have hpatch : Hoare.Triple (Fits (C := C) w.conn)
      (RelationalDbAccessor.updateDepsMissingPack E name id) (fun _ => RowsInv) fun _ => True := by
    refine Hoare.Triple.bind (putPackageId_fits hC hid) fun _ => ?_
    refine Hoare.Triple.bind (promotePackageData_fits hC name) fun _ => ?_
    exact (preserves_query (updateDepsMissingPack_rows E.digests name id)).pre
      fun _ => .of_fits h.constraints
  exact hpatch.of_ok h.fits hrun

theorem preserves_rowsOp (op : RowsOp) : Hoare.Preserves (RowsInv (C := C)) (op.run E) := by
  cases op with
  | insertNewPackage newPackage =>
    exact Hoare.Preserves.bind (preserves_insertNewPackage hC E newPackage)
      fun _ => Hoare.Preserves.pure
  | updatePackage newPackage =>
    refine preserves_of_ok fun w r w' hw hrun => ?_
    obtain ⟨p, hp, hupdate⟩ := run_updatePackage E hrun
    exact (hw.update E hC hp hupdate).1
  | getPackageByName name =>
    exact Hoare.Preserves.bind (preserves_of_fits fun db hdb =>
      getPackageByName_fits hC E hdb fun _ => ⟨trivial, trivial⟩) fun _ => Hoare.Preserves.pure
  | maybeGetPackageIdByName name =>
    exact Hoare.Preserves.bind (preserves_maybeGetPackageIdByName hC name)
      fun _ => Hoare.Preserves.pure
  | insertNewVersion newVersion =>
    exact Hoare.Preserves.bind (preserves_insertNewVersion hC newVersion)
      fun _ => Hoare.Preserves.pure
  | getVersionIdBySemver packageId v =>
    exact Hoare.Preserves.bind (preserves_getVersionIdBySemver hC packageId v)
      fun _ => Hoare.Preserves.pure
  | updateDepsMissingPack name =>
    refine preserves_of_ok fun w r w' hw hrun => ?_
    obtain ⟨id, hid, hpatch⟩ := run_updateDepsMissingPack E hrun
    exact hw.patch E hC hid hpatch

theorem RowsInv.getsRows {w : World C} (h : RowsInv w) : GetsRows E w := by
  have hgets : ∀ op r, RowsOp.row w.conn op = some r →
      Hoare.Triple (Fits (C := C) w.conn) (op.run E) (fun r' _ => r' = r) fun _ => False := by
    intro op r hrow
    cases op with
    | getPackageByName name =>
      obtain ⟨p, hp, rfl⟩ := Option.map_eq_some_iff.mp hrow
      have hF : packageOf w.conn name = none → False ∧ False := by
        rw [hp]
        exact nofun
      refine Hoare.Triple.bind (getPackageByName_fits hC E h.constraints hF)
        fun p' => Hoare.Triple.of_and fun hp' => Hoare.Triple.pure fun _ _ => ?_
      rw [hp] at hp'
      rw [Option.some.inj hp']
    | maybeGetPackageIdByName name =>
      cases hrow
      refine Hoare.Triple.bind (maybeGetPackageIdByName_fits hC name)
        fun id => Hoare.Triple.of_and fun hid => Hoare.Triple.pure fun _ _ => ?_
      rw [hid]
    | getVersionIdBySemver packageId v =>
      obtain ⟨id, hid, rfl⟩ := Option.map_eq_some_iff.mp hrow
      have hF : versionIdOf w.conn (packageId, v) = none → False := by
        rw [hid]
        exact nofun
      refine Hoare.Triple.bind (getVersionIdBySemver_fits hC hF)
        fun id' => Hoare.Triple.of_and fun hid' => Hoare.Triple.pure fun _ _ => ?_
      rw [hid] at hid'
      rw [Option.some.inj hid']
    | _ => cases hrow
  intro op r hrow
  have hrun := hgets op r hrow w h.fits
  cases hx : op.run E w with
  | error e =>
    rw [hx] at hrun
    exact hrun.elim
  | ok r' =>
    rw [hx] at hrun
    exact ⟨r'.2, by rw [← hrun]⟩

theorem RowsInv.updatesAlike {w : World C} (h : RowsInv w) : UpdatesAlike E w := by
  intro p new w' hp hrun
  obtain ⟨p', hp', hupdate⟩ := run_updatePackage E hrun
  rw [hp] at hp'
  cases hp'
  obtain ⟨hinv, hrow⟩ := h.update E hC hp hupdate
  refine ⟨hrow, fun q hq => ?_⟩
  have hcached := hinv.fits.packageData _ q hq
  rw [hrow] at hcached
  exact (Option.some.inj hcached).symm

end

section Samples

def sampleRow (name : String) (created : DateTime) : NewPackage where
  name := name
  currentPackageStateType := .normal
  packageStateHistory := [⟨.normal, 1, 1, some created⟩]
  distTagLatestVersion := none
  created := some created
  modified := some created
  otherDistTags := some (.object [])
  otherTimeData := none
  unpublishedData := none

/-- Package `p` is updated after the entry for it was evicted by that for `q`. -/
def sampleRowsOps : List RowsOp :=
  [.insertNewPackage (sampleRow "p" 1), .insertNewPackage (sampleRow "q" 2),
    .updatePackage (sampleRow "p" 3), .getPackageByName "p"]

end Samples

end NpmFollower.RelationalDbBuilder
