import NpmFollower.Library.Folds
import NpmFollower.Library.Hoare
import NpmFollower.Library.KeyedLog
import NpmFollower.Library.KeysetPages
import NpmFollower.Library.Upserts
import NpmFollower.PostgresDb.Connection

/-! # What updates do to the dependencies

A program reads all updates page by page and compares the dependencies of the two
versions of each. It creates its table first, and cannot be started again while
the table exists.
-/

namespace NpmFollower.Analysis

open Std PostgresDb

/-- The versions of an update, by which the updates are sorted. -/
structure Update where
  fromId : ℤ
  toId : ℤ
deriving DecidableEq

structure UpdateDep where
  fromId : ℤ
  toId : ℤ
  didAddDep : Bool
  didRemoveDep : Bool
  didChangeDepConstraint : Bool
deriving DecidableEq

abbrev DepSpecs := ExtTreeMap String ParsedSpec compare

/-- The specs by the name of the package, the last of several for one name. -/
def depSpecs (deps : List Dependency) : DepSpecs :=
  deps.foldl (fun m dep => m.insert dep.dstPackageName dep.spec) ∅

def addDeps (ver : Version) : Query DepSpecs := do
  let ids := ver.prodDependencies ++ ver.devDependencies ++ ver.peerDependencies ++
    ver.optionalDependencies
  let deps ← ids.mapM Dependencies.getDependencyById
  return depSpecs deps

/-- The loop over the old specs: those found among the new ones are taken from these. -/
def compareDeps : List (String × ParsedSpec) → DepSpecs → Bool → Bool → Bool × Bool × DepSpecs
  | [], toDeps, didRemove, didChange => (didRemove, didChange, toDeps)
  | (name, fromSpec) :: deps, toDeps, didRemove, didChange =>
    match toDeps[name]? with
    | some toSpec =>
      compareDeps deps (toDeps.erase name) didRemove (didChange || fromSpec ≠ toSpec)
    | none => compareDeps deps toDeps true didChange

def updateDep (update : Update) : Query UpdateDep := do
  let fromVer ← Versions.getVersionById update.fromId
  let toVer ← Versions.getVersionById update.toId
  let fromDeps ← addDeps fromVer
  let toDeps ← addDeps toVer
  let (didRemoveDep, didChangeDepConstraint, rest) := compareDeps fromDeps.toList toDeps false false
  return { fromId := update.fromId, toId := update.toId, didAddDep := !rest.isEmpty, didRemoveDep,
           didChangeDepConstraint }

def UpdateDep.pair (r : UpdateDep) : ℤ × ℤ := (r.fromId, r.toId)

def depUpdateChanges (db : Db) (table : List Update) (rows : List UpdateDep) :
    Option (List UpdateDep) :=
  match (table.mapM updateDep) db with
  | .ok (new, _) => some (new.foldl (Rows.insertMissing UpdateDep.pair) rows)
  | .error _ => none

/-- `ORDER BY from_id, to_id`, behind the last row of the page before. -/
def Update.key (u : Update) : ℤ ×ₗ ℤ := toLex (u.fromId, u.toId)

/-- The program, stopped after so many pages; `none` is the table that does not exist. -/
def processDiffAllUpdates (db : Db) (updates : List Update) (chunkSize : ℕ) (pages : ℕ) :
    Option (List UpdateDep) → Option (List UpdateDep) × Bool
  | some rows => (some rows, false)
  | none =>
    let result := KeysetPages.visit Update.key (fun _ => updates) chunkSize (depUpdateChanges db)
      pages none []
    (some result.1, result.2)

/-! ## Comparing two maps of specs -/

theorem compareDeps_eq {deps : List (String × ParsedSpec)} (hdeps : (deps.map Prod.fst).Nodup)
    (toDeps : DepSpecs) (didRemove didChange : Bool) :
    (compareDeps deps toDeps didRemove didChange).1 =
      (didRemove || deps.any fun dep => toDeps[dep.1]?.isNone) ∧
    (compareDeps deps toDeps didRemove didChange).2.1 =
      (didChange || deps.any fun dep => toDeps[dep.1]?.any (dep.2 ≠ ·)) ∧
    ∀ k, (compareDeps deps toDeps didRemove didChange).2.2[k]? =
      if k ∈ deps.map Prod.fst then none else toDeps[k]? := by
  induction deps generalizing toDeps didRemove didChange with
  | nil => simp [compareDeps]
  | cons dep deps ih =>
    obtain ⟨name, fromSpec⟩ := dep
    rw [List.map_cons, List.nodup_cons] at hdeps
    rw [compareDeps]
    cases hto : toDeps[name]? with
    | none =>
      obtain ⟨hremove, hchange, hrest⟩ := ih hdeps.2 toDeps true didChange
      refine ⟨by simp [hremove, hto], by simp [hchange, hto], fun k => ?_⟩
      rw [hrest, List.map_cons]
      by_cases hk : k = name
      · simp [hk, hto]
      · simp only [List.mem_cons, hk, false_or]
    | some toSpec =>
      have hother : ∀ dep ∈ deps, (toDeps.erase name)[dep.1]? = toDeps[dep.1]? := by
        intro dep hdep
        rw [FiniteMap.getElem?_erase, if_neg]
        intro heq
        exact hdeps.1 (List.mem_map.mpr ⟨dep, hdep, heq.symm⟩)
      have hany (f : ParsedSpec → Option ParsedSpec → Bool) :
          (deps.any fun dep => f dep.2 (toDeps.erase name)[dep.1]?) =
            deps.any fun dep => f dep.2 toDeps[dep.1]? := by
        rw [Bool.eq_iff_iff, List.any_eq_true, List.any_eq_true]
        exact exists_congr fun dep => and_congr_right fun hdep => by rw [hother dep hdep]
      obtain ⟨hremove, hchange, hrest⟩ :=
        ih hdeps.2 (toDeps.erase name) didRemove (didChange || decide (fromSpec ≠ toSpec))
      refine ⟨?_, ?_, fun k => ?_⟩
      · rw [hremove, hany fun _ spec => spec.isNone, List.any_cons, hto]
        rfl
      · rw [hchange, hany fun spec => Option.any (spec ≠ ·), List.any_cons, hto, Bool.or_assoc]
        rfl
      · rw [hrest, List.map_cons, FiniteMap.getElem?_erase]
        by_cases hk : k = name
        · simp [hk]
        · simp only [List.mem_cons, hk, Ne.symm hk, false_or, if_false]

/-! ## What is read of an update -/

/-- The row of each dependency of a version, in the order in which they are read. -/
def versionDeps (db : Db) (ver : Version) : Option (List Dependency) :=
  (ver.prodDependencies ++ ver.devDependencies ++ ver.peerDependencies ++
    ver.optionalDependencies).mapM (Rows.find Dependency.id db.dependencies.rows)

/-- The spec of the last dependency on a package. -/
def specOf (deps : List Dependency) (name : String) : Option ParsedSpec :=
  (KeyedLog.lastAbout (fun dep => some dep.dstPackageName) name deps).map (·.spec)

section Reading

variable {db : Db}

theorem getDependencyById_apply (id : ℤ) : Dependencies.getDependencyById id db =
    (Rows.find Dependency.id db.dependencies.rows id).elim
      (.error (.database "Error getting dep by id")) fun dep => .ok (dep, db) := by
  rw [Dependencies.getDependencyById, Hoare.bind_apply, Hoare.get_apply]
  exact expect_apply _ _ _

theorem getVersionById_apply (id : ℤ) : Versions.getVersionById id db =
    (Rows.find Version.id db.versions.rows id).elim
      (.error (.database "Error getting package")) fun ver => .ok (ver, db) := by
  rw [Versions.getVersionById, Hoare.bind_apply, Hoare.get_apply]
  exact expect_apply _ _ _

theorem mapM_getDependencyById (ids : List ℤ) : ids.mapM Dependencies.getDependencyById db =
    (ids.mapM (Rows.find Dependency.id db.dependencies.rows)).elim
      (.error (.database "Error getting dep by id")) fun deps => .ok (deps, db) := by
  induction ids with
  | nil => rfl
  | cons id ids ih =>
    rw [Hoare.mapM_cons_apply, getDependencyById_apply, List.mapM_cons]
    cases Rows.find Dependency.id db.dependencies.rows id with
    | none => rfl
    | some dep =>
      simp only [Option.elim_some]
      rw [ih]
      cases ids.mapM (Rows.find Dependency.id db.dependencies.rows) <;> rfl

theorem addDeps_apply (ver : Version) : addDeps ver db =
    (versionDeps db ver).elim (.error (.database "Error getting dep by id")) fun deps =>
      .ok (depSpecs deps, db) := by
  rw [addDeps, Hoare.bind_apply, mapM_getDependencyById, versionDeps]
  cases (ver.prodDependencies ++ ver.devDependencies ++ ver.peerDependencies ++
    ver.optionalDependencies).mapM (Rows.find Dependency.id db.dependencies.rows) <;> rfl

theorem getElem?_depSpecs (deps : List Dependency) (name : String) :
    (depSpecs deps)[name]? = specOf deps name := by
  have hwrite := KeyedLog.getElem?_foldl_write (fun dep : Dependency => some dep.dstPackageName)
    (fun dep => some dep.spec) ∅ deps name
  rw [specOf]
  refine hwrite.trans ?_
  cases KeyedLog.lastAbout (fun dep : Dependency => some dep.dstPackageName) name deps <;> simp

/-- The dependencies of both versions of an update, if all their rows are there. -/
def updateDeps (db : Db) (u : Update) : Option (List Dependency × List Dependency) := do
  let fromVer ← Rows.find Version.id db.versions.rows u.fromId
  let toVer ← Rows.find Version.id db.versions.rows u.toId
  let fromDeps ← versionDeps db fromVer
  let toDeps ← versionDeps db toVer
  return (fromDeps, toDeps)

/-- The row that compares two lists of dependencies. -/
def compared (u : Update) (fromDeps toDeps : List Dependency) : UpdateDep :=
  let result := compareDeps (depSpecs fromDeps).toList (depSpecs toDeps) false false
  ⟨u.fromId, u.toId, !result.2.2.isEmpty, result.1, result.2.1⟩

theorem updateDep_apply (u : Update) : updateDep u db =
    match updateDeps db u with
    | some deps => .ok (compared u deps.1 deps.2, db)
    | none => .error (if (Rows.find Version.id db.versions.rows u.fromId).isSome ∧
        (Rows.find Version.id db.versions.rows u.toId).isSome then
        .database "Error getting dep by id" else .database "Error getting package") := by
  rw [updateDep, Hoare.bind_apply, getVersionById_apply, updateDeps]
  cases Rows.find Version.id db.versions.rows u.fromId with
  | none => rfl
  | some fromVer =>
    simp only [Option.elim_some]
    rw [Hoare.bind_apply, getVersionById_apply]
    cases Rows.find Version.id db.versions.rows u.toId with
    | none => rfl
    | some toVer =>
      simp only [Option.elim_some]
      rw [Hoare.bind_apply, addDeps_apply]
      simp only [Option.bind_eq_bind, Option.bind_some]
      cases versionDeps db fromVer with
      | none => rfl
      | some fromDeps =>
        simp only [Option.elim_some]
        rw [Hoare.bind_apply, addDeps_apply]
        cases versionDeps db toVer <;> rfl

/-- A row tells which package names came, which went, and whether one has another spec. -/
structure Describes (fromDeps toDeps : List Dependency) (r : UpdateDep) : Prop where
  added : r.didAddDep = true ↔ ∃ name, specOf fromDeps name = none ∧ (specOf toDeps name).isSome
  removed : r.didRemoveDep = true ↔
    ∃ name, (specOf fromDeps name).isSome ∧ specOf toDeps name = none
  changed : r.didChangeDepConstraint = true ↔ ∃ name spec spec',
    specOf fromDeps name = some spec ∧ specOf toDeps name = some spec' ∧ spec ≠ spec'

theorem compared_describes (u : Update) (fromDeps toDeps : List Dependency) :
    Describes fromDeps toDeps (compared u fromDeps toDeps) := by
  have hfrom (name : String) (spec : ParsedSpec) :
      (name, spec) ∈ (depSpecs fromDeps).toList ↔ specOf fromDeps name = some spec := by
    rw [ExtTreeMap.mem_toList_iff_getElem?_eq_some, getElem?_depSpecs]
  have hnames (name : String) : name ∈ (depSpecs fromDeps).toList.map Prod.fst ↔
      (specOf fromDeps name).isSome := by
    rw [List.mem_map, Option.isSome_iff_exists]
    constructor
    · rintro ⟨⟨_, spec⟩, hmem, rfl⟩
      exact ⟨spec, (hfrom _ spec).mp hmem⟩
    · rintro ⟨spec, hspec⟩
      exact ⟨(name, spec), (hfrom name spec).mpr hspec, rfl⟩
  have hnodup : ((depSpecs fromDeps).toList.map Prod.fst).Nodup := by
    rw [ExtTreeMap.map_fst_toList_eq_keys]
    exact ExtTreeMap.nodup_keys
  obtain ⟨hremove, hchange, hrest⟩ := compareDeps_eq hnodup (depSpecs toDeps) false false
  simp only [getElem?_depSpecs, Bool.false_or] at hremove hchange hrest
  refine ⟨?_, ?_, ?_⟩
  · rw [compared, Bool.not_eq_true', ← Bool.not_eq_true, ExtTreeMap.isEmpty_iff]
    constructor
    · intro hne
      by_contra hnone
      refine hne (ExtTreeMap.ext_getElem? fun name => ?_)
      rw [hrest, ExtTreeMap.getElem?_empty]
      split_ifs with hname
      · rfl
      · by_contra hto
        refine hnone ⟨name, ?_, Option.isSome_iff_ne_none.mpr hto⟩
        rwa [hnames, Option.isSome_iff_ne_none, not_not] at hname
    · rintro ⟨name, hfromNone, hto⟩ hempty
      have hgone := hrest name
      rw [hempty, ExtTreeMap.getElem?_empty, if_neg] at hgone
      · rw [← hgone] at hto
        cases hto
      · rw [hnames, hfromNone]
        exact Bool.false_ne_true
  · rw [compared, hremove, List.any_eq_true]
    constructor
    · rintro ⟨⟨name, spec⟩, hmem, hto⟩
      exact ⟨name, (hnames name).mp (List.mem_map_of_mem hmem), Option.isNone_iff_eq_none.mp hto⟩
    · rintro ⟨name, hname, hto⟩
      obtain ⟨spec, hspec⟩ := Option.isSome_iff_exists.mp hname
      exact ⟨(name, spec), (hfrom name spec).mpr hspec, Option.isNone_iff_eq_none.mpr hto⟩
  · rw [compared, hchange, List.any_eq_true]
    constructor
    · rintro ⟨⟨name, spec⟩, hmem, hto⟩
      obtain ⟨spec', hspec', hne⟩ := (Option.any_eq_true _ _).mp hto
      exact ⟨name, spec, spec', (hfrom name spec).mp hmem, hspec', of_decide_eq_true hne⟩
    · rintro ⟨name, spec, spec', hspec, hspec', hne⟩
      refine ⟨(name, spec), (hfrom name spec).mpr hspec, ?_⟩
      rw [hspec']
      exact decide_eq_true hne

/-- The row of an update, if everything it takes can be read. -/
def rowOf (db : Db) (u : Update) : Option UpdateDep :=
  (updateDeps db u).map fun deps => compared u deps.1 deps.2

theorem rowOf_eq_some_iff {u : Update} {r : UpdateDep} : rowOf db u = some r ↔
    ∃ fromDeps toDeps, updateDeps db u = some (fromDeps, toDeps) ∧ r = compared u fromDeps toDeps := by
  simp [rowOf, eq_comm]

theorem mapM_updateDep (table : List Update) :
    (table.mapM updateDep db).toOption = (table.mapM (rowOf db)).map fun new => (new, db) := by
  induction table with
  | nil => rfl
  | cons u table ih =>
    rw [Hoare.mapM_cons_apply, updateDep_apply, List.mapM_cons, rowOf]
    cases updateDeps db u with
    | none => rfl
    | some deps =>
      simp only [Option.map_some, Option.bind_eq_bind, Option.bind_some]
      cases hrest : table.mapM updateDep db with
      | error e =>
        rw [hrest] at ih
        cases hrows : table.mapM (rowOf db) with
        | none => rfl
        | some rows => simp [hrows, Except.toOption] at ih
      | ok result =>
        rw [hrest] at ih
        cases hrows : table.mapM (rowOf db) with
        | none => simp [hrows, Except.toOption] at ih
        | some rows =>
          obtain rfl : result = (rows, db) := by simpa [hrows, Except.toOption] using ih
          rfl

theorem depUpdateChanges_eq (table : List Update) (rows : List UpdateDep) :
    depUpdateChanges db table rows = (table.mapM (rowOf db)).map fun new =>
      new.foldl (Rows.insertMissing UpdateDep.pair) rows := by
  have hmap := @mapM_updateDep db table
  rw [depUpdateChanges]
  cases hresult : table.mapM updateDep db with
  | error e =>
    rw [hresult] at hmap
    cases hrows : table.mapM (rowOf db) with
    | none => rfl
    | some rows => simp [hrows, Except.toOption] at hmap
  | ok result =>
    rw [hresult] at hmap
    cases hrows : table.mapM (rowOf db) with
    | none => simp [hrows, Except.toOption] at hmap
    | some rows =>
      obtain rfl : result = (rows, db) := by simpa [hrows, Except.toOption] using hmap
      rfl

end Reading

/-! ## Runs of the program -/

section Runs

variable {db : Db} {updates : List Update} (hupdates : (updates.map Update.key).Nodup)

/-- The rows are those of some updates, one for each. -/
def DepRows (db : Db) (updates : List Update) (rows : List UpdateDep) : Prop :=
  (rows.map UpdateDep.pair).Nodup ∧ ∀ r ∈ rows, ∃ u ∈ updates, rowOf db u = some r

theorem pair_of_rowOf {u : Update} {r : UpdateDep} (h : rowOf db u = some r) :
    r.pair = (u.fromId, u.toId) := by
  obtain ⟨fromDeps, toDeps, -, rfl⟩ := rowOf_eq_some_iff.mp h
  rfl

include hupdates

theorem DepRows.depUpdateChanges {p : List Update} {rows rows' : List UpdateDep}
    (h : DepRows db updates rows) (hp : ∀ u ∈ p, u ∈ updates)
    (hrun : depUpdateChanges db p rows = some rows') :
    DepRows db updates rows' ∧ rows ⊆ rows' ∧ ∀ u ∈ p, ∃ r ∈ rows', rowOf db u = some r := by
  rw [depUpdateChanges_eq] at hrun
  obtain ⟨new, hnew, rfl⟩ := Option.map_eq_some_iff.mp hrun
  have hall := Folds.forall₂_of_mapM hnew
  have hrows : DepRows db updates (new.foldl (Rows.insertMissing UpdateDep.pair) rows) := by
    refine ⟨Rows.nodup_foldl_insertMissing h.1, fun r hr => ?_⟩
    rcases Rows.mem_of_mem_foldl_insertMissing hr with hr | hr
    · exact h.2 r hr
    · obtain ⟨u, hu, hrow⟩ := Folds.exists_of_mem_right hall hr
      exact ⟨u, hp u hu, hrow⟩
  refine ⟨hrows, Rows.subset_foldl_insertMissing, fun u hu => ?_⟩
  obtain ⟨r, hr, hrow⟩ := Folds.exists_of_mem_right hall.flip hu
  have hmem := @Rows.mem_keys_foldl_insertMissing _ _ _ UpdateDep.pair rows r new hr
  obtain ⟨r', hr', hpair⟩ := List.mem_map.mp hmem
  obtain ⟨u', hu', hrow'⟩ := hrows.2 r' hr'
  have hkey : u'.key = u.key := by
    rw [Update.key, Update.key, ← pair_of_rowOf hrow', hpair, pair_of_rowOf hrow]
  rw [List.inj_on_of_nodup_map hupdates hu' (hp u hu) hkey] at hrow'
  exact ⟨r', hr', hrow'⟩

/-- However the run ends, the table has right rows only. A run of enough pages comes to its end just
when everything about the updates can be read, and then each update has its row. -/
theorem updateDeps_exact (chunkSize : ℕ) (hchunk : 1 ≤ chunkSize) (pages : ℕ) :
    let result := processDiffAllUpdates db updates chunkSize pages none
    ∃ rows, result.1 = some rows ∧ (rows.map UpdateDep.pair).Nodup ∧
      (∀ r ∈ rows, ∃ u ∈ updates, r.pair = (u.fromId, u.toId) ∧
        ∃ fromDeps toDeps, updateDeps db u = some (fromDeps, toDeps) ∧
          Describes fromDeps toDeps r) ∧
      (result.2 = true → ∀ u ∈ updates, ∃ r ∈ rows, r.pair = (u.fromId, u.toId)) ∧
      (updates.length < pages → (result.2 = true ↔ ∀ u ∈ updates, (updateDeps db u).isSome)) := by
  let I : List Update → List UpdateDep → Prop := fun done rows =>
    DepRows db updates rows ∧ ∀ u ∈ done, ∃ r ∈ rows, rowOf db u = some r
  have hstep : ∀ done p rows rows', I done rows → (∀ u ∈ p, u ∈ updates) →
      (p.map Update.key).Nodup → depUpdateChanges db p rows = some rows' →
        I (done ++ p) rows' := by
    intro done p rows rows' hI hp _ hrun
    obtain ⟨hrows, hsub, hnew⟩ := hI.1.depUpdateChanges hupdates hp hrun
    refine ⟨hrows, fun u hu => ?_⟩
    rcases List.mem_append.mp hu with hu | hu
    · obtain ⟨r, hr, hrow⟩ := hI.2 u hu
      exact ⟨r, hsub hr, hrow⟩
    · exact hnew u hu
  have hstart : I [] [] :=
    ⟨⟨List.nodup_nil, fun r hr => absurd hr List.not_mem_nil⟩,
      fun u hu => absurd hu List.not_mem_nil⟩
  have hperm : (KeysetPages.behind Update.key none updates).Perm updates :=
    KeysetPages.behind_none_perm
  obtain ⟨visited, -, hI, hend⟩ := KeysetPages.visit_rule (fun _ : List UpdateDep => hupdates) hchunk
    (fun _ _ _ _ _ _ _ _ => rfl) hstep pages none [] [] hstart
  refine ⟨_, rfl, hI.1.1, fun r hr => ?_, fun hfin u hu => ?_, fun hpages => ⟨fun hfin u hu => ?_, ?_⟩⟩
  · obtain ⟨u, hu, hrow⟩ := hI.1.2 r hr
    obtain ⟨fromDeps, toDeps, hdeps, rfl⟩ := rowOf_eq_some_iff.mp hrow
    exact ⟨u, hu, rfl, fromDeps, toDeps, hdeps, compared_describes u fromDeps toDeps⟩
  · obtain ⟨r, hr, hrow⟩ := hI.2 u (by rw [hend hfin]; exact hperm.mem_iff.mpr hu)
    exact ⟨r, hr, pair_of_rowOf hrow⟩
  · obtain ⟨r, -, hrow⟩ := hI.2 u (by rw [hend hfin]; exact hperm.mem_iff.mpr hu)
    obtain ⟨fromDeps, toDeps, hdeps, -⟩ := rowOf_eq_some_iff.mp hrow
    exact Option.isSome_of_eq_some hdeps
  · intro hread
    refine KeysetPages.visit_finished (fun _ : List UpdateDep => hupdates) hchunk
      (fun _ _ _ _ _ _ _ _ => rfl) ?_ pages none [] [] hstart (hperm.length_eq ▸ hpages)
    intro done p rows hI hp hnodup
    have hrows : ∀ u ∈ p, (rowOf db u).isSome := fun u hu => by
      rw [rowOf, Option.isSome_map]
      exact hread u (hp u hu)
    obtain ⟨new, hnew⟩ := Folds.exists_mapM_of_forall hrows
    have hrun : depUpdateChanges db p rows =
        some (new.foldl (Rows.insertMissing UpdateDep.pair) rows) := by
      rw [depUpdateChanges_eq, hnew]
      rfl
    exact ⟨_, hrun, hstep done p rows _ hI hp hnodup hrun⟩

end Runs

/-- A version of a package with the given dependencies. -/
def versionWith (id : ℤ) (prodDependencies : List ℤ) : Version where
  id
  packageId := 1
  semver := ⟨1, 0, id, [], []⟩
  currentVersionStateType := .normal
  versionStateHistory := []
  tarballUrl := ""
  repositoryRaw := none
  repositoryParsed := none
  created := 0
  extraMetadata := .null
  prodDependencies
  devDependencies := []
  peerDependencies := []
  optionalDependencies := []

def dependencyOn (id : ℤ) (name tag : String) : Dependency where
  id
  dstPackageName := name
  dstPackageIdIfExists := none
  rawSpec := .string tag
  spec := .tag tag
  counts := .zero
  md5digest := name
  md5digestWithVersion := name ++ tag

/-- Three versions: the second has another spec, the third another dependency. -/
def threeVersions : Db where
  packages := .empty
  versions := ⟨[versionWith 1 [1], versionWith 2 [2], versionWith 3 [2, 3]], 4⟩
  dependencies := ⟨[dependencyOn 1 "once" "latest", dependencyOn 2 "once" "next",
    dependencyOn 3 "wrappy" "latest"], 4⟩

theorem updateDeps_threeVersions :
    (processDiffAllUpdates threeVersions [⟨2, 3⟩, ⟨1, 2⟩] 1 3 none).2 = true := by
  obtain ⟨rows, -, -, -, -, hend⟩ :=
    @updateDeps_exact threeVersions [⟨2, 3⟩, ⟨1, 2⟩] (by decide) 1 le_rfl 3
  exact (hend (by decide)).mpr (by decide +kernel)

end NpmFollower.Analysis
