import NpmFollower.PostgresDb.DiffLog

/-! # The diff state manager

The differ does not keep the packuments, only their hashes. The manager holds
the hash state of the packages a call has touched, loaded on first lookup from
the table `internal_diff_log_state`, and writes the flagged ones back at the
end of the call.
-/

namespace NpmFollower.PostgresDb

open Std

structure InternalDiffLogVersionState where
  versionPackHash : String
  deleted : Bool
deriving DecidableEq

structure InternalDiffLogPackageState where
  packagePackHash : Option String
  versions : BTreeMap Semver InternalDiffLogVersionState
deriving DecidableEq

structure InternalDiffLogVersionStateElem where
  v : Semver
  packHash : String
  deleted : Bool
deriving DecidableEq

structure InternalDiffLogStateRow where
  packageName : String
  packageOnlyPackumentHash : String
  versions : List InternalDiffLogVersionStateElem
deriving DecidableEq

/-- The table `internal_diff_log_state`, by its primary key `package_name`. -/
abbrev InternalDiffLogStateTable := BTreeMap String InternalDiffLogStateRow

inductive FlushOp where
  | nothing
  | create
  | set
deriving DecidableEq

/-- What the manager holds for one package. -/
abbrev LocalState := Option InternalDiffLogPackageState × FlushOp

abbrev DiffStateManager := BTreeMap String LocalState

def InternalDiffLogStateRow.load (r : InternalDiffLogStateRow) : InternalDiffLogPackageState where
  packagePackHash := some r.packageOnlyPackumentHash
  versions := ExtTreeMap.ofList
    (r.versions.map fun elem => (elem.v, ⟨elem.packHash, elem.deleted⟩)) compare

namespace DiffStateManager

def new : DiffStateManager := ∅

/-- A package that is not in the map yet is loaded from the table. -/
def lookupPackage (m : DiffStateManager) (table : InternalDiffLogStateTable) (name : String) :
    Option InternalDiffLogPackageState × DiffStateManager :=
  match m[name]? with
  | some state => (state.1, m)
  | none =>
    let loaded := table[name]?.map InternalDiffLogStateRow.load
    (loaded, m.insert name (loaded, .nothing))

end DiffStateManager

/-- The flag after a write that has to reach the table. -/
def FlushOp.orSet (f : FlushOp) : FlushOp := if f = .create then .create else .set

/-- The match of `apply_diff_entry` on the state of the entry's package; `none` is a panic. -/
def LocalState.apply (state : LocalState) (hash : Option String) :
    DiffLogInstruction → Option LocalState
  | .createPackage _ => do
    guard (state.1.isNone ∧ state.2 = .nothing)
    return (some ⟨hash, ∅⟩, .create)
  | .updatePackage _ => do
    let packageState ← state.1
    let h ← hash
    return (some { packageState with packagePackHash := some h }, state.2.orSet)
  | .createVersion v _ => do
    let packageState ← state.1
    let h ← hash
    guard (v ∉ packageState.versions)
    return (some { packageState with versions := packageState.versions.insert v ⟨h, false⟩ },
      state.2.orSet)
  | .updateVersion v _ => do
    let packageState ← state.1
    let verState ← packageState.versions[v]?
    let h ← hash
    return (some { packageState with
      versions := packageState.versions.insert v { verState with versionPackHash := h } }, state.2)
  | .deleteVersion v => do
    guard hash.isNone
    let packageState ← state.1
    let verState ← packageState.versions[v]?
    return (some { packageState with
      versions := packageState.versions.insert v { verState with deleted := true } }, state.2)
  | .patchPackageReferences => some state

namespace DiffStateManager

/-- The package of the entry has to have been looked up before. -/
def applyDiffEntry (m : DiffStateManager) (e : NewDiffLogEntryWithHash) :
    Option DiffStateManager := do
  let state ← m[e.entry.packageName]?
  let state' ← state.apply e.hash e.entry.instr
  return m.insert e.entry.packageName state'

end DiffStateManager

/-- The row that `flush_to_db` builds from a flagged package; `none` is a panic. -/
def LocalState.row (name : String) (state : LocalState) : Option InternalDiffLogStateRow := do
  let packageState ← state.1
  let hash ← packageState.packagePackHash
  return {
    packageName := name
    packageOnlyPackumentHash := hash
    versions := packageState.versions.toList.map fun e => ⟨e.1, e.2.versionPackHash, e.2.deleted⟩ }

namespace InternalDiffLogStateTable

/-- One `INSERT`: a row whose key exists violates the primary key. -/
def createPackages (table : InternalDiffLogStateTable) (rows : List InternalDiffLogStateRow) :
    Option InternalDiffLogStateTable :=
  rows.foldlM (fun t r => if r.packageName ∈ t then none else some (t.insert r.packageName r)) table

/-- One `UPDATE` for each row, which changes nothing when the key does not exist. -/
def updatePackages (table : InternalDiffLogStateTable) (rows : List InternalDiffLogStateRow) :
    InternalDiffLogStateTable :=
  rows.foldl (fun t r => if r.packageName ∈ t then t.insert r.packageName r else t) table

end InternalDiffLogStateTable

namespace DiffStateManager

/-- The flagged packages as rows, with their flags. -/
def flushRows (m : DiffStateManager) : Option (List (InternalDiffLogStateRow × FlushOp)) :=
  (m.toList.filter fun e => e.2.2 ≠ .nothing).mapM fun e =>
    (LocalState.row e.1 e.2).map fun r => (r, e.2.2)

def flushToDb (m : DiffStateManager) (table : InternalDiffLogStateTable) :
    Option InternalDiffLogStateTable := do
  let rows ← m.flushRows
  let (createRows, updateRows) := rows.partition fun r => r.2 = .create
  let table ← table.createPackages (createRows.map Prod.fst)
  return table.updatePackages (updateRows.map Prod.fst)

end DiffStateManager

end NpmFollower.PostgresDb
