import NpmFollower.Analysis.Oldness
import NpmFollower.Analysis.UpdateDependencies
import NpmFollower.RelationalDbBuilder.RowTransparency
import NpmFollower.Library.Runs

/-! # Runs of the program that computes ages

Results come in at any time, and runs of the program may stop after any page.
Every result that the solver reported has a lock file that can be read again, so
a run with pages enough comes to its end and leaves one right row for each.
-/

namespace NpmFollower.Analysis

open Std PostgresDb HistoricSolverJob RelationalDbBuilder

/-! ## The cache makes no difference -/

section Cached

variable {C : LruCache String VersionCacheValue} {db : Db} {R : Readers} {cache : C.State}

/-- What the cache finds is what the database has. -/
def CacheTrue (C : LruCache String VersionCacheValue) (db : Db) (cache : C.State) : Prop :=
  ∀ package versions, C.peek cache package = some versions → versions = readVersionTimes db package

variable (hC : C.Lawful)

include hC

theorem cacheTrue_new : CacheTrue C db C.new := by
  intro package versions h
  rw [hC.peek_new] at h
  cases h

theorem getPackageVersionTimes_eq (h : CacheTrue C db cache) (package : String) :
    (getPackageVersionTimes C db package cache).1 = readVersionTimes db package ∧
      CacheTrue C db (getPackageVersionTimes C db package cache).2 := by
  have hfst := hC.get_fst cache package
  have hpeek := hC.peek_get cache package
  rw [getPackageVersionTimes]
  cases hget : C.get cache package with
  | mk found cache' =>
    rw [hget] at hfst hpeek
    have hcache' : CacheTrue C db cache' := fun p versions hp => h p versions ((hpeek p).symm.trans hp)
    cases found with
    | some versions => exact ⟨h package versions hfst.symm, hcache'⟩
    | none =>
      refine ⟨rfl, fun p versions hp => ?_⟩
      rcases hC.of_peek_put hp with ⟨rfl, rfl⟩ | ⟨-, hp⟩
      · rfl
      · exact hcache' p versions hp

theorem howOldAll_eq (h : CacheTrue C db cache) (solveTime : DateTime)
    (deps : List (String × Semver)) :
    (howOldAll C db solveTime deps cache).1 =
      deps.filterMap (fun dep => age (readVersionTimes db dep.1) dep.2 solveTime) ∧
    CacheTrue C db (howOldAll C db solveTime deps cache).2 := by
  induction deps generalizing cache with
  | nil => exact ⟨rfl, h⟩
  | cons dep deps ih =>
    obtain ⟨hversions, hcache⟩ := getPackageVersionTimes_eq hC h dep.1
    obtain ⟨hrest, hcache'⟩ := ih hcache
    refine ⟨?_, hcache'⟩
    rw [List.filterMap_cons, ← hrest, ← hversions]
    have hcons : (howOldAll C db solveTime (dep :: deps) cache).1 =
        (age (getPackageVersionTimes C db dep.1 cache).1 dep.2 solveTime).toList ++
          (howOldAll C db solveTime deps (getPackageVersionTimes C db dep.1 cache).2).1 := rfl
    rw [hcons]
    cases age (getPackageVersionTimes C db dep.1 cache).1 dep.2 solveTime <;> rfl

end Cached

section Rows

variable (C : LruCache String VersionCacheValue) (R : Readers) (db : Db)

/-- The row of a result, from the database alone. -/
def oldnessOf (row : HistoricResultRow) : Option OldnessRow :=
  match row.solveHistory.head? with
  | some firstSolve =>
    (parseLockfileJson R R.chrono.maxUtc firstSolve.fullPackageLock).map fun solution =>
      ⟨row.updateFromId, row.updateToId, row.downstreamPackageId,
        (intoAllDeps solution).filterMap fun dep =>
          age (readVersionTimes db dep.1) dep.2 firstSolve.solveTime⟩
  | none => some ⟨row.updateFromId, row.updateToId, row.downstreamPackageId, []⟩

variable {C R db} (hC : C.Lawful)

theorem key_of_oldnessOf {row : HistoricResultRow} {o : OldnessRow}
    (h : oldnessOf R db row = some o) : o.key = row.key := by
  rw [oldnessOf] at h
  split at h
  · obtain ⟨solution, -, rfl⟩ := Option.map_eq_some_iff.mp h
    rfl
  · cases h
    rfl

include hC

theorem oldnessRow_eq {cache : C.State} (h : CacheTrue C db cache) (row : HistoricResultRow) :
    match oldnessRow C R db row cache with
    | some (o, cache') => oldnessOf R db row = some o ∧ CacheTrue C db cache'
    | none => oldnessOf R db row = none := by
  rw [oldnessRow, oldnessOf]
  cases row.solveHistory.head? with
  | none => exact ⟨rfl, h⟩
  | some firstSolve =>
    dsimp only
    cases parseLockfileJson R R.chrono.maxUtc firstSolve.fullPackageLock with
    | none => rfl
    | some solution =>
      obtain ⟨hages, hcache⟩ := howOldAll_eq hC h firstSolve.solveTime (intoAllDeps solution)
      exact ⟨by rw [Option.map_some, ← hages], hcache⟩

theorem oldnessRows_eq {cache : C.State} (h : CacheTrue C db cache)
    (table : List HistoricResultRow) :
    match oldnessRows C R db table cache with
    | some (rows, cache') => table.mapM (oldnessOf R db) = some rows ∧ CacheTrue C db cache'
    | none => table.mapM (oldnessOf R db) = none := by
  induction table generalizing cache with
  | nil => exact ⟨rfl, h⟩
  | cons row table ih =>
    have hrow := oldnessRow_eq (R := R) hC h row
    rw [oldnessRows, List.mapM_cons]
    cases hone : oldnessRow C R db row cache with
    | none =>
      rw [hone] at hrow
      simp only [Option.bind_eq_bind, Option.bind_none]
      rw [hrow]
      rfl
    | some result =>
      rw [hone] at hrow
      have hrest := ih hrow.2
      simp only [Option.bind_eq_bind, Option.bind_some]
      rw [hrow.1]
      cases hmany : oldnessRows C R db table result.2 with
      | none =>
        rw [hmany] at hrest
        rw [hrest]
        rfl
      | some results =>
        rw [hmany] at hrest
        rw [hrest.1]
        exact ⟨rfl, hrest.2⟩

/-- A page is written when all lock files on it can be read and no key is there twice. -/
theorem solveOldness_eq {table : List HistoricResultRow} {s s' : List OldnessRow × C.State}
    (h : CacheTrue C db s.2) (hsolve : solveOldness C R db table s = some s') :
    ∃ rows, table.mapM (oldnessOf R db) = some rows ∧ s'.1 = s.1 ++ rows ∧
      ((s.1 ++ rows).map OldnessRow.key).Nodup ∧ CacheTrue C db s'.2 := by
  have hrows := oldnessRows_eq (R := R) hC h table
  rw [solveOldness] at hsolve
  obtain ⟨⟨rows, cache⟩, hread, hinsert⟩ := Option.bind_eq_some_iff.mp hsolve
  rw [hread] at hrows
  rw [Option.ite_none_right_eq_some] at hinsert
  obtain ⟨hnodup, heq⟩ := hinsert
  cases heq
  exact ⟨rows, hrows.1, rfl, hnodup, hrows.2⟩

theorem solveOldness_of_read {table : List HistoricResultRow} {s : List OldnessRow × C.State}
    (h : CacheTrue C db s.2) {rows : List OldnessRow}
    (hread : table.mapM (oldnessOf R db) = some rows)
    (hnodup : ((s.1 ++ rows).map OldnessRow.key).Nodup) :
    (solveOldness C R db table s).isSome := by
  have hrows := oldnessRows_eq (R := R) hC h table
  cases hresult : oldnessRows C R db table s.2 with
  | none =>
    rw [hresult, hread] at hrows
    cases hrows
  | some result =>
    rw [hresult, hread] at hrows
    obtain ⟨hsame, -⟩ := hrows
    cases hsame
    rw [solveOldness, hresult]
    simp only [Option.bind_eq_bind, Option.bind_some, if_pos hnodup]
    rfl

end Rows

/-! ## The lock file of a reported result -/

section Reported

variable {R : Readers}

/-- What the solver could push, the program that computes ages can. -/
theorem lockedDep_isSome {m m' : SolveSolutionMetrics} {dep : String × Value}
    (h : R.pushLocked m dep = .ok m') (solution : SolveSolutionMetrics) :
    (lockedDep R solution dep).isSome := by
  rw [Readers.pushLocked] at h
  rw [lockedDep]
  by_cases hpath : dep.1 = ""
  · rw [if_pos hpath]
    rfl
  · rw [if_neg hpath] at h ⊢
    obtain ⟨depInfo, hinfo, h⟩ := Folds.ok_of_bind h
    rw [expect_eq_ok.mp hinfo, Option.bind_eq_bind, Option.bind_some]
    by_cases hlink : depInfo.containsKey "link"
    · rw [if_pos hlink]
      rfl
    · rw [if_neg hlink] at h ⊢
      cases hname : afterLast "node_modules/".toList dep.1.toList with
      | none => rfl
      | some depName =>
        rw [hname] at h
        obtain ⟨⟨_, parsed⟩, hsolved, -⟩ := Folds.ok_of_bind h
        obtain ⟨value, hvalue, hsolved⟩ := Folds.ok_of_bind hsolved
        obtain ⟨version, hversion, hsolved⟩ := Folds.ok_of_bind hsolved
        obtain ⟨semver, hsemver, -⟩ := Folds.ok_of_bind hsolved
        rw [Readers.unwrapSemver] at hsemver
        simp only [expect_eq_ok.mp hvalue, expect_eq_ok.mp hversion, Option.bind_eq_bind,
          Option.bind_some]
        cases hparse : SemverSpecSerialization.parseSemver R.unicode version with
        | error e =>
          rw [hparse] at hsemver
          cases hsemver
        | ok semver => rfl

theorem foldlM_lockedDep_isSome {deps : List (String × Value)} {m m' : SolveSolutionMetrics}
    (h : deps.foldlM R.pushLocked m = .ok m') (solution : SolveSolutionMetrics) :
    (deps.foldlM (lockedDep R) solution).isSome := by
  induction deps generalizing m solution with
  | nil => rfl
  | cons dep deps ih =>
    obtain ⟨pushed, hdep, hdeps⟩ := Folds.foldlM_cons_ok h
    obtain ⟨solution', hsolution⟩ := Option.isSome_iff_exists.mp (lockedDep_isSome hdep solution)
    rw [List.foldlM_cons, hsolution]
    exact ih hdeps solution'

theorem parseLockfileJson_isSome {v : Semver} {dt : DateTime} {lock : Value}
    {m : SolveSolutionMetrics} (h : R.readLock v dt lock = .ok m) (maxUtc : DateTime) :
    (parseLockfileJson R maxUtc lock).isSome := by
  obtain ⟨lockObj, hobj, h⟩ := Folds.ok_of_bind h
  obtain ⟨packages, hpackages, h⟩ := Folds.ok_of_bind h
  obtain ⟨deps, hdeps, h⟩ := Folds.ok_of_bind h
  rw [parseLockfileJson]
  simp only [expect_eq_ok.mp hobj, expect_eq_ok.mp hpackages, expect_eq_ok.mp hdeps,
    Option.bind_eq_bind, Option.bind_some]
  exact foldlM_lockedDep_isSome h _

end Reported

/-! ## One run -/

section Run

variable {C : LruCache String VersionCacheValue} (hC : C.Lawful) {R : Readers} {db : Db}
  {dbs : List Db} {results : List HistoricResultRow}

/-- Each row is that of a result over one of the databases, and a result has one row. -/
structure Aged (R : Readers) (dbs : List Db) (results : List HistoricResultRow)
    (oldnesses : List OldnessRow) : Prop where
  nodup : (oldnesses.map OldnessRow.key).Nodup
  sound : ∀ o ∈ oldnesses, ∃ row ∈ results, ∃ db ∈ dbs, oldnessOf R db row = some o

theorem Aged.mono {dbs' : List Db} {results' : List HistoricResultRow}
    {oldnesses : List OldnessRow} (h : Aged R dbs results oldnesses) (hdbs : dbs ⊆ dbs')
    (hresults : results ⊆ results') : Aged R dbs' results' oldnesses := by
  refine ⟨h.nodup, fun o ho => ?_⟩
  obtain ⟨row, hrow, db, hdb, heq⟩ := h.sound o ho
  exact ⟨row, hresults hrow, db, hdbs hdb, heq⟩

/-- The results that a run still has to work on. -/
def waiting (results : List HistoricResultRow) (oldnesses : List OldnessRow) :
    List HistoricResultRow :=
  results.filter fun r => r.key ∉ oldnesses.map OldnessRow.key

theorem keys_of_mapM {p : List HistoricResultRow} {rows : List OldnessRow}
    (h : p.mapM (oldnessOf R db) = some rows) : rows.map OldnessRow.key = p.map (·.key) :=
  (Folds.map_eq_map_of_forall₂ (Folds.forall₂_of_mapM h)
    fun _ _ hrow => (key_of_oldnessOf hrow).symm).symm

theorem behind_waiting {k : ℤ ×ₗ ℤ ×ₗ ℤ} {oldnesses rows : List OldnessRow}
    (hrows : ∀ o ∈ rows, o.key ≤ k) :
    KeysetPages.behind HistoricResultRow.key (some k) (waiting results (oldnesses ++ rows)) =
      KeysetPages.behind HistoricResultRow.key (some k) (waiting results oldnesses) := by
  rw [KeysetPages.behind, KeysetPages.behind, waiting, waiting, List.filter_filter,
    List.filter_filter]
  congr 1
  apply List.filter_congr
  intro r _
  by_cases hr : k < r.key
  · have hnot : r.key ∉ rows.map OldnessRow.key := by
      intro hmem
      obtain ⟨o, ho, hkey⟩ := List.mem_map.mp hmem
      exact absurd (hrows o ho) (by rw [hkey]; exact hr.not_ge)
    simp [hr, hnot]
  · simp [hr]

theorem key_mem_of_mapM {p : List HistoricResultRow} {rows : List OldnessRow}
    (h : p.mapM (oldnessOf R db) = some rows) {k : ℤ ×ₗ ℤ ×ₗ ℤ} (hp : ∀ r ∈ p, r.key ≤ k) :
    ∀ o ∈ rows, o.key ≤ k := by
  intro o ho
  have hmem := List.mem_map_of_mem (f := OldnessRow.key) ho
  rw [keys_of_mapM h] at hmem
  obtain ⟨r, hr, hkey⟩ := List.mem_map.mp hmem
  exact hkey ▸ hp r hr

/-- What holds after some pages: the rows are old or right, and the results worked on have theirs. -/
structure AfterPages (C : LruCache String VersionCacheValue) (R : Readers) (db : Db)
    (results : List HistoricResultRow) (start : List OldnessRow) (done : List HistoricResultRow)
    (s : List OldnessRow × C.State) : Prop where
  nodup : (s.1.map OldnessRow.key).Nodup
  sound : ∀ o ∈ s.1, o ∈ start ∨ ∃ row ∈ results, oldnessOf R db row = some o
  cache : CacheTrue C db s.2
  kept : start ⊆ s.1
  written : ∀ r ∈ done, ∃ o ∈ s.1, oldnessOf R db r = some o

include hC

theorem AfterPages.step {start : List OldnessRow} {done p : List HistoricResultRow}
    {s s' : List OldnessRow × C.State} (h : AfterPages C R db results start done s)
    (hp : ∀ r ∈ p, r ∈ waiting results s.1) (hsolve : solveOldness C R db p s = some s') :
    AfterPages C R db results start (done ++ p) s' := by
  obtain ⟨rows, hread, hs', hnodup, hcache⟩ := solveOldness_eq hC h.cache hsolve
  have hall := Folds.forall₂_of_mapM hread
  refine ⟨hs' ▸ hnodup, fun o ho => ?_, hcache, fun o ho => ?_, fun r hr => ?_⟩
  · rw [hs', List.mem_append] at ho
    rcases ho with ho | ho
    · exact h.sound o ho
    · obtain ⟨r, hr, hrow⟩ := Folds.exists_of_mem_right hall ho
      exact Or.inr ⟨r, (List.mem_filter.mp (hp r hr)).1, hrow⟩
  · rw [hs']
    exact List.mem_append_left _ (h.kept ho)
  · rw [hs']
    rcases List.mem_append.mp hr with hr | hr
    · obtain ⟨o, ho, hrow⟩ := h.written r hr
      exact ⟨o, List.mem_append_left _ ho, hrow⟩
    · obtain ⟨o, ho, hrow⟩ := Folds.exists_of_mem_right hall.flip hr
      exact ⟨o, List.mem_append_right _ ho, hrow⟩

/-- A page of readable results that have no rows yet can be written. -/
theorem AfterPages.writable {start : List OldnessRow} {done p : List HistoricResultRow}
    {s : List OldnessRow × C.State} (h : AfterPages C R db results start done s)
    (hp : ∀ r ∈ p, r ∈ waiting results s.1) (hnodup : (p.map HistoricResultRow.key).Nodup)
    (hread : ∀ r ∈ p, (oldnessOf R db r).isSome) : ∃ s', solveOldness C R db p s = some s' := by
  obtain ⟨rows, hrows⟩ := Folds.exists_mapM_of_forall hread
  refine Option.isSome_iff_exists.mp (solveOldness_of_read hC h.cache hrows ?_)
  rw [List.map_append, keys_of_mapM hrows]
  refine h.nodup.append hnodup fun k hold hnew => ?_
  obtain ⟨r, hr, rfl⟩ := List.mem_map.mp hnew
  exact of_decide_eq_true (List.mem_filter.mp (hp r hr)).2 hold

variable (hresults : (results.map HistoricResultRow.key).Nodup)

include hresults

/-- A run leaves right rows, and one that ends leaves none out. A run of enough pages ends when all
lock files can be read. -/
theorem Aged.process {oldnesses : List OldnessRow} (h : Aged R dbs results oldnesses)
    (hdb : db ∈ dbs) {chunkSize : ℕ} (hchunk : 1 ≤ chunkSize) (pages : ℕ) :
    let result := processHistoricSolver C R db results chunkSize pages oldnesses
    Aged R dbs results result.1 ∧ oldnesses ⊆ result.1 ∧
      (∀ o ∈ result.1, o ∈ oldnesses ∨ ∃ row ∈ results, oldnessOf R db row = some o) ∧
      (result.2 = true → ∀ r ∈ results, r.key ∉ oldnesses.map OldnessRow.key →
        ∃ o ∈ result.1, oldnessOf R db r = some o) ∧
      (results.length < pages → (∀ r ∈ results, (oldnessOf R db r).isSome) → result.2 = true) := by
  have hrows : ∀ s : List OldnessRow × C.State,
      ((waiting results s.1).map HistoricResultRow.key).Nodup :=
    fun s => (List.filter_sublist.map _).nodup hresults
  have hstart : AfterPages C R db results oldnesses [] (oldnesses, C.new) :=
    ⟨h.nodup, fun _ ho => Or.inl ho, cacheTrue_new hC, fun _ ho => ho, fun r hr => absurd hr List.not_mem_nil⟩
  have hkeep : ∀ done p s s' r, AfterPages C R db results oldnesses done s →
      solveOldness C R db p s = some s' →
      (∀ x ∈ p, HistoricResultRow.key x ≤ HistoricResultRow.key r) →
      KeysetPages.behind HistoricResultRow.key (some r.key) (waiting results s'.1) =
        KeysetPages.behind HistoricResultRow.key (some r.key) (waiting results s.1) := by
    intro done p s s' r hI hsolve hle
    obtain ⟨rows, hread, hs', -, -⟩ := solveOldness_eq hC hI.cache hsolve
    rw [hs']
    exact behind_waiting (key_mem_of_mapM hread hle)
  have hperm : (KeysetPages.behind HistoricResultRow.key none (waiting results oldnesses)).Perm
      (waiting results oldnesses) := KeysetPages.behind_none_perm
  obtain ⟨visited, -, hI, hend⟩ := KeysetPages.visit_rule hrows hchunk hkeep
    (fun done p s s' hI hp _ hsolve => hI.step hC hp hsolve) pages none [] (oldnesses, C.new) hstart
  refine ⟨⟨hI.nodup, fun o ho => ?_⟩, hI.kept, hI.sound, fun hfin r hr hkey => hI.written r ?_,
    fun hpages hread => ?_⟩
  · rcases hI.sound o ho with hold | ⟨row, hrow, heq⟩
    · exact h.sound o hold
    · exact ⟨row, hrow, db, hdb, heq⟩
  · rw [hend hfin]
    exact hperm.mem_iff.mpr (List.mem_filter.mpr ⟨hr, decide_eq_true hkey⟩)
  · refine KeysetPages.visit_finished hrows hchunk hkeep ?_ pages none [] (oldnesses, C.new) hstart ?_
    · intro done p s hI hp hnodup
      obtain ⟨s', hsolve⟩ := hI.writable hC hp hnodup fun r hr =>
        hread r (List.mem_filter.mp (hp r hr)).1
      exact ⟨s', hsolve, hI.step hC hp hsolve⟩
    · rw [hperm.length_eq]
      exact (List.length_filter_le _ _).trans_lt hpages

end Run

/-! ## The results come in -/

/-- The row that a posted result is stored in. -/
def historicResultRow (result : JobResult) : HistoricResultRow :=
  ⟨result.updateFromId, result.updateToId, result.downstreamPackageId, result.solveHistory⟩

structure OldnessDb where
  db : Db
  before : List Db
  results : List HistoricResultRow
  oldnesses : List OldnessRow

namespace OldnessDb

def empty : OldnessDb := ⟨.empty, [], [], []⟩

def dbs (s : OldnessDb) : List Db := s.db :: s.before

inductive Action where
  | change (db : Db)
  | submit (result : JobResult)
  | process (chunkSize pages : ℕ)

section World

variable (C : LruCache String VersionCacheValue) (R : Readers)

def process (s : OldnessDb) (chunkSize pages : ℕ) : List OldnessRow × Bool :=
  processHistoricSolver C R s.db s.results chunkSize pages s.oldnesses

/-- A result with the key of one that is there is refused. -/
def step (s : OldnessDb) : Action → Option OldnessDb
  | .change db => some { s with db, before := s.dbs }
  | .submit result =>
    if (historicResultRow result).key ∈ s.results.map HistoricResultRow.key then none
    else some { s with results := s.results ++ [historicResultRow result] }
  | .process chunkSize pages => some { s with oldnesses := (s.process C R chunkSize pages).1 }

/-- Only what a job reported is posted. -/
def Meets (_ : OldnessDb) : Action → Prop
  | .change _ => True
  | .submit result => ∃ S job, R.runSolveJob S job = .ok result
  | .process chunkSize _ => 1 ≤ chunkSize

/-- The results can be read, and the ages are those of results. -/
structure Sound (s : OldnessDb) : Prop where
  nodup : (s.results.map HistoricResultRow.key).Nodup
  readable : ∀ row ∈ s.results, ∀ db, (oldnessOf R db row).isSome
  aged : Aged R s.dbs s.results s.oldnesses

end World

variable {C : LruCache String VersionCacheValue} {R : Readers} {s s' : OldnessDb} {a : Action}

theorem oldnessOf_reported {S : Surroundings} {job : Job} {result : JobResult}
    (h : R.runSolveJob S job = .ok result) (db : Db) :
    (oldnessOf R db (historicResultRow result)).isSome := by
  obtain ⟨run, hrun, h⟩ := Folds.ok_of_bind h
  obtain rfl := Except.ok.inj h
  have hhistory : (historicResultRow (R.jobResult job run)).solveHistory = run.history := rfl
  rw [oldnessOf, hhistory]
  cases hhead : run.history.head? with
  | none => rfl
  | some first =>
    obtain ⟨v, dt, m, hread⟩ := Readers.readLock_of_head hrun hhead
    obtain ⟨solution, hsolution⟩ :=
      Option.isSome_iff_exists.mp (parseLockfileJson_isSome hread R.chrono.maxUtc)
    dsimp only
    rw [hsolution]
    rfl

theorem Sound.step (hC : C.Lawful) (h : s.Sound R) (hmeets : Meets R s a)
    (hstep : step C R s a = some s') : s'.Sound R := by
  cases a with
  | change db =>
    obtain rfl := Option.some.inj hstep
    exact ⟨h.nodup, h.readable, h.aged.mono (List.subset_cons_self _ _) fun _ hr => hr⟩
  | submit result =>
    obtain ⟨S, job, hjob⟩ := hmeets
    rw [step, Option.ite_none_left_eq_some] at hstep
    obtain ⟨hfresh, hstep⟩ := hstep
    obtain rfl := Option.some.inj hstep
    refine ⟨?_, fun row hrow db => ?_, h.aged.mono (fun _ hdb => hdb) ?_⟩
    · rw [List.map_append, List.map_singleton, List.nodup_append_comm]
      exact List.nodup_cons.mpr ⟨hfresh, h.nodup⟩
    · rcases List.mem_append.mp hrow with hrow | hrow
      · exact h.readable row hrow db
      · exact List.mem_singleton.mp hrow ▸ oldnessOf_reported hjob db
    · exact List.subset_append_left _ _
  | process chunkSize pages =>
    obtain rfl := Option.some.inj hstep
    have hrun := h.aged.process hC h.nodup (List.mem_cons_self (a := s.db)) hmeets pages
    exact ⟨h.nodup, h.readable, hrun.1⟩

theorem sound_of_reach (hC : C.Lawful)
    (h : Runs.Reach (step C R) (Meets R) .empty s) : s.Sound R := by
  refine h.invariant ?_ fun hs hm hstep => hs.step hC hm hstep
  exact ⟨List.nodup_nil, fun row hrow => absurd hrow List.not_mem_nil,
    List.nodup_nil, fun o ho => absurd ho List.not_mem_nil⟩

def lodashRelease (major created : ℤ) : NewVersion :=
  { versionWith 0 [] with packageId := 7, semver := release major, created }

/-- Three releases of a package: the one that is solved first, a later one, and the update. -/
def lodashReleases : Db where
  packages := ⟨[⟨sampleRow "lodash" 0, 7⟩], 8⟩
  versions := ⟨[⟨lodashRelease 2 2000000000000, 3⟩, ⟨lodashRelease 1 1000000000000, 1⟩,
    ⟨{ lodashRelease 1 1500000000000 with semver := ⟨1, 1, 0, [], []⟩ }, 2⟩], 4⟩
  dependencies := .empty

end OldnessDb

end NpmFollower.Analysis
