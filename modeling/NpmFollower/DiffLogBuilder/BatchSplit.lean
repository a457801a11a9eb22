import NpmFollower.DiffLogBuilder.Run

/-! # Splitting the changes into calls

A deleted or updated version does not raise the flush flag, so a call that does
nothing else to a known package does not write the package back. Calls that
avoid this leave the same log and the same rows as one call with all changes.
-/

namespace NpmFollower.DiffLogBuilder

open Std PostgresDb

/-- A property of every call, with the tables it starts on. -/
def EveryCall (env : Env) (Q : DiffLogDb → List Change → Prop) : DiffLogDb → List (List Change) → Prop
  | _, [] => True
  | db, batch :: batches => Q db batch ∧ ∀ db' metrics,
      processChanges env db batch = some (.ok (db', metrics)) → EveryCall env Q db' batches

/-- A new manager finds on the flushed table what the manager of the call had in memory. -/
def WritesBack (env : Env) (db : DiffLogDb) (batch : List Change) : Prop :=
  ∀ s table', processAll env db.internalDiffLogState Progress.start batch = .ok s →
    s.stateManager.flushToDb db.internalDiffLogState = some table' →
    ∀ name, (DiffStateManager.new.lookupPackage table' name).1 =
      (s.stateManager.lookupPackage db.internalDiffLogState name).1

/-- One call with all changes leaves the same log and the same rows, and every call writes back
what a later lookup can observe. -/
def SplitInvariant (env : Env) (db : DiffLogDb) (batches : List (List Change)) : Prop :=
  runChangeBatches env db [batches.flatten] = runChangeBatches env db batches ∧
    EveryCall env (WritesBack env) db batches

section Package

variable (H : Hasher)

/-- The data that the last of the changes with this version carries for it. -/
def lastData (v : Semver) (cs : List ParsedChange) : Option VersionOnlyPackument :=
  (cs.filterMap fun c => c.versions[v]?).getLast?

/-- The changes of a package bring new package data or a new version, or else they edit no
version: each carries all versions that are not deleted, and the last data of a version are the
ones whose hash is stored. -/
def EditsComeWithNews (st : InternalDiffLogPackageState) (cs : List ParsedChange) : Prop :=
  (∀ c ∈ cs, c.isNews H st = false) → ∀ (v : Semver) (s : InternalDiffLogVersionState),
    st.versions[v]? = some s →
      (s.deleted = false → ∀ c ∈ cs, v ∈ c.versions) ∧
      ∀ d ∈ lastData v cs, H.versionHash d = s.versionPackHash

namespace ParsedChange

variable {H}

theorem isNews_eq_false_iff {c : ParsedChange} {st : InternalDiffLogPackageState} :
    c.isNews H st = false ↔ st.packagePackHash = some (H.packageHash c.data) ∧
      ∀ v : Semver, c.versions[v]?.isSome → st.versions[v]?.isSome := by
  simp only [isNews, Bool.or_eq_false_iff, List.any_eq_false, isNewVersion, Bool.and_eq_true,
    not_and, Bool.not_eq_true, decide_eq_false_iff_not, not_not, and_comm,
    FiniteMap.mem_unionKeys]
  refine and_congr_right fun _ => forall_congr' fun v => ?_
  rw [← ExtTreeMap.isSome_getElem?_iff_mem, ← ExtTreeMap.isSome_getElem?_iff_mem]
  cases st.versions[v]? <;> cases c.versions[v]? <;> simp

/-- A change without news keeps the hash of the package and its set of versions. -/
theorem nextState_of_not_isNews {c : ParsedChange} {st : InternalDiffLogPackageState}
    (h : c.isNews H st = false) :
    (c.nextState H (some st)).packagePackHash = st.packagePackHash ∧
      ∀ v : Semver, (c.nextState H (some st)).versions[v]?.isSome ↔ st.versions[v]?.isSome := by
  obtain ⟨hhash, hversions⟩ := isNews_eq_false_iff.mp h
  refine ⟨hhash.symm, fun v => ?_⟩
  rw [nextState_versions, nextVersion_isSome]
  exact or_iff_left_of_imp (hversions v)

theorem isNews_congr {c : ParsedChange} {st st' : InternalDiffLogPackageState}
    (hhash : st'.packagePackHash = st.packagePackHash)
    (hversions : ∀ v : Semver, st'.versions[v]?.isSome ↔ st.versions[v]?.isSome) :
    c.isNews H st' = c.isNews H st := by
  rw [Bool.eq_iff_iff, ← not_iff_not, Bool.not_eq_true, Bool.not_eq_true, isNews_eq_false_iff,
    isNews_eq_false_iff, hhash]
  simp only [hversions]

end ParsedChange

/-- The local state of a package after its changes. -/
def LocalState.after (s : LocalState) (cs : List ParsedChange) : LocalState :=
  cs.foldl (fun s c => c.nextLocal H s) s

variable {H}

theorem after_flag_ne_nothing {s : LocalState} (hs : s.2 ≠ .nothing) (cs : List ParsedChange) :
    (LocalState.after H s cs).2 ≠ .nothing := by
  induction cs generalizing s with
  | nil => exact hs
  | cons c cs ih =>
    refine ih ?_
    obtain ⟨_ | st, f⟩ := s
    · simp [ParsedChange.nextLocal]
    · cases f <;> cases h : c.isNews H st <;> simp_all [ParsedChange.nextLocal, FlushOp.orSet]

/-- The flag of a known package stays down exactly when no change has news. -/
theorem after_flag_eq_nothing_iff (st : InternalDiffLogPackageState) (cs : List ParsedChange) :
    (LocalState.after H (some st, .nothing) cs).2 = .nothing ↔ ∀ c ∈ cs, c.isNews H st = false := by
  induction cs generalizing st with
  | nil => simp [LocalState.after]
  | cons c cs ih =>
    change (LocalState.after H (c.nextLocal H (some st, .nothing)) cs).2 = _ ↔ _
    rw [List.forall_mem_cons]
    cases hc : c.isNews H st with
    | true =>
      have hflag : (c.nextLocal H (some st, .nothing)).2 ≠ .nothing := by
        simp [ParsedChange.nextLocal, hc, FlushOp.orSet]
      simpa using after_flag_ne_nothing hflag cs
    | false =>
      obtain ⟨hhash, hversions⟩ := ParsedChange.nextState_of_not_isNews hc
      have hlocal : c.nextLocal H (some st, .nothing) =
          (some (c.nextState H (some st)), .nothing) := by
        simp [ParsedChange.nextLocal, hc]
      rw [hlocal, ih]
      simp only [ParsedChange.isNews_congr hhash hversions, true_and]

/-- One version of a known package after the changes of the package. -/
theorem after_versions (st : InternalDiffLogPackageState) (f : FlushOp) (cs : List ParsedChange) :
    ∃ st', (LocalState.after H (some st, f) cs).1 = some st' ∧
      (∀ v : Semver, st'.versions[v]? =
        cs.foldl (fun o c => ParsedChange.nextVersion H o c.versions[v]?) st.versions[v]?) ∧
      st'.packagePackHash = (cs.getLast?.map fun c => H.packageHash c.data).or st.packagePackHash := by
  induction cs generalizing st f with
  | nil => exact ⟨st, rfl, fun v => rfl, by simp⟩
  | cons c cs ih =>
    obtain ⟨st', hst', hversions, hhash⟩ :=
      ih (c.nextState H (some st)) (c.nextLocal H (some st, f)).2
    refine ⟨st', hst', fun v => ?_, ?_⟩
    · rw [hversions, ParsedChange.nextState_versions]
      rfl
    · rw [hhash]
      cases cs with
      | nil => rfl
      | cons c' cs => simp [List.getLast?_cons]

theorem foldl_nextVersion_some (s : InternalDiffLogVersionState) (cs : List ParsedChange)
    (v : Semver) :
    cs.foldl (fun o c => ParsedChange.nextVersion H o c.versions[v]?) (some s) =
      some ⟨((lastData v cs).map H.versionHash).getD s.versionPackHash,
        s.deleted || cs.any fun c => c.versions[v]?.isNone⟩ := by
  induction cs using List.reverseRecOn with
  | nil => simp [lastData]
  | append_singleton cs c ih =>
    rw [List.foldl_append, ih, List.foldl_cons, List.foldl_nil, List.any_append]
    cases hc : c.versions[v]? <;>
      simp [ParsedChange.nextVersion, lastData, List.filterMap_append, hc]

theorem foldl_nextVersion_none {cs : List ParsedChange} {v : Semver}
    (h : ∀ c ∈ cs, c.versions[v]? = none) :
    cs.foldl (fun o c => ParsedChange.nextVersion H o c.versions[v]?) none = none := by
  induction cs with
  | nil => rfl
  | cons c cs ih =>
    rw [List.foldl_cons, h c List.mem_cons_self]
    exact ih fun c' hc' => h c' (List.mem_cons_of_mem _ hc')

/-- Without news the state of the package is unchanged exactly when no version is edited. -/
theorem after_eq_iff {st : InternalDiffLogPackageState} {f : FlushOp} {cs : List ParsedChange}
    (hnews : ∀ c ∈ cs, c.isNews H st = false) :
    (LocalState.after H (some st, f) cs).1 = some st ↔ ∀ (v : Semver) s, st.versions[v]? = some s →
      (s.deleted = false → ∀ c ∈ cs, v ∈ c.versions) ∧
      ∀ d ∈ lastData v cs, H.versionHash d = s.versionPackHash := by
  obtain ⟨st', hst', hversions, hhash⟩ := after_versions (H := H) st f cs
  have hsame : st'.packagePackHash = st.packagePackHash := by
    rw [hhash]
    cases hlast : cs.getLast? with
    | none => rfl
    | some c =>
      exact (ParsedChange.isNews_eq_false_iff.mp (hnews c (List.mem_of_getLast? hlast))).1.symm
  have heq : (LocalState.after H (some st, f) cs).1 = some st ↔
      ∀ v : Semver, st'.versions[v]? = st.versions[v]? := by
    rw [hst']
    constructor
    · rintro ⟨⟩ v
      rfl
    · intro h
      obtain ⟨hash, versions⟩ := st'
      obtain ⟨hash', versions'⟩ := st
      cases hsame
      cases ExtTreeMap.ext_getElem? h
      rfl
  rw [heq]
  refine forall_congr' fun v => ?_
  rw [hversions]
  cases hv : st.versions[v]? with
  | none =>
    have hnone : ∀ c ∈ cs, c.versions[v]? = none := fun c hc => by
      have h := (ParsedChange.isNews_eq_false_iff.mp (hnews c hc)).2 v
      rw [hv] at h
      simpa using h
    simp [foldl_nextVersion_none hnone]
  | some s =>
    rw [foldl_nextVersion_some]
    obtain ⟨hash, deleted⟩ := s
    simp only [Option.some.injEq, InternalDiffLogVersionState.mk.injEq, forall_eq']
    rw [and_comm]
    refine and_congr ?_ ?_
    · cases deleted <;> simp
    · cases lastData v cs <;> simp

/-- The flushed row of a package is read back as its state exactly when edits come with news. -/
theorem loaded_flushed_iff (name : String) (row : Option InternalDiffLogStateRow)
    (cs : List ParsedChange) (hs : (LocalState.after H (LocalState.loaded row) cs).Settled row) :
    (LocalState.loaded ((LocalState.after H (LocalState.loaded row) cs).flushed name row)).1 =
        (LocalState.after H (LocalState.loaded row) cs).1 ↔
      ∀ r, row = some r → EditsComeWithNews H r.load cs := by
  by_cases hflag : (LocalState.after H (LocalState.loaded row) cs).2 = .nothing
  · rw [LocalState.flushed, if_pos hflag]
    cases row with
    | none =>
      have hunknown := hs.nothing hflag rfl
      simpa [LocalState.loaded] using hunknown.symm
    | some r =>
      have hnews := (after_flag_eq_nothing_iff r.load cs).mp hflag
      have hiff := after_eq_iff (f := .nothing) hnews
      simp only [Option.some.injEq, forall_eq']
      rw [EditsComeWithNews, forall_prop_of_true hnews, ← hiff]
      exact eq_comm
  · obtain ⟨r', hr'⟩ := Option.isSome_iff_exists.mp (hs.row_isSome name hflag)
    have hback : (LocalState.loaded ((LocalState.after H (LocalState.loaded row) cs).flushed name
        row)).1 = (LocalState.after H (LocalState.loaded row) cs).1 := by
      rw [LocalState.flushed, if_neg hflag, hr', LocalState.load_of_row hr']
      rfl
    simp only [hback, true_iff]
    rintro r rfl hnews
    exact absurd ((after_flag_eq_nothing_iff r.load cs).mpr hnews) hflag

/-- The flag a call starts with stays as it is when the changes raise none, and up otherwise. -/
theorem after_flag (st : Option InternalDiffLogPackageState) (f : FlushOp) (cs : List ParsedChange) :
    ((LocalState.after H (st, .nothing) cs).2 = .nothing → (LocalState.after H (st, f) cs).2 = f) ∧
      ((LocalState.after H (st, .nothing) cs).2 ≠ .nothing →
        (LocalState.after H (st, f) cs).2 ≠ .nothing) := by
  induction cs generalizing st with
  | nil => exact ⟨fun _ => rfl, fun h => absurd rfl h⟩
  | cons c cs ih =>
    have hcons (s : LocalState) :
        LocalState.after H s (c :: cs) = LocalState.after H (c.nextLocal H s) cs := rfl
    have hraised {s s' : LocalState} (hs : s.2 ≠ .nothing) (hs' : s'.2 ≠ .nothing) :
        ((LocalState.after H s cs).2 = .nothing → (LocalState.after H s' cs).2 = f) ∧
          ((LocalState.after H s cs).2 ≠ .nothing → (LocalState.after H s' cs).2 ≠ .nothing) :=
      ⟨fun h => absurd h (after_flag_ne_nothing hs cs), fun _ => after_flag_ne_nothing hs' cs⟩
    rw [hcons, hcons]
    cases st with
    | none => exact hraised (by simp [ParsedChange.nextLocal]) (by simp [ParsedChange.nextLocal])
    | some st =>
      cases hnews : c.isNews H st with
      | true =>
        refine hraised ?_ ?_
        · simp [ParsedChange.nextLocal, hnews, FlushOp.orSet]
        · cases f <;> simp [ParsedChange.nextLocal, hnews, FlushOp.orSet]
      | false =>
        have hstep (g : FlushOp) :
            c.nextLocal H (some st, g) = (some (c.nextState H (some st)), g) := by
          simp [ParsedChange.nextLocal, hnews]
        rw [hstep, hstep]
        exact ih _

/-- The flag does not influence the state. -/
theorem after_fst_congr {s s' : LocalState} (h : s.1 = s'.1) (cs : List ParsedChange) :
    (LocalState.after H s cs).1 = (LocalState.after H s' cs).1 := by
  induction cs generalizing s s' with
  | nil => exact h
  | cons c cs ih => exact ih (by simp [ParsedChange.nextLocal, h])

/-- A call on a row that agrees with the state of a longer call flushes what the longer call
would flush. -/
theorem flushed_after_eq {s : LocalState} {row row₀ : Option InternalDiffLogStateRow} {name : String}
    {cs : List ParsedChange} (hstate : s.1 = (LocalState.loaded row).1)
    (hrow : row = s.flushed name row₀)
    (hback : (LocalState.loaded ((LocalState.after H (LocalState.loaded row) cs).flushed name
      row)).1 = (LocalState.after H (LocalState.loaded row) cs).1) :
    (LocalState.after H (LocalState.loaded row) cs).flushed name row =
      (LocalState.after H s cs).flushed name row₀ := by
  have hfst : (LocalState.after H s cs).1 = (LocalState.after H (LocalState.loaded row) cs).1 :=
    after_fst_congr hstate cs
  obtain ⟨st, f⟩ := s
  obtain ⟨hkept, hraised⟩ := after_flag (H := H) st f cs
  have hloaded : LocalState.loaded row = (st, .nothing) := Prod.ext hstate.symm rfl
  rw [hloaded] at hfst hback ⊢
  by_cases hflag : (LocalState.after H (st, .nothing) cs).2 = .nothing
  · rw [LocalState.flushed, if_pos hflag, hloaded] at hback
    have hsame : LocalState.after H (st, f) cs = (st, f) :=
      Prod.ext (hfst.trans hback.symm) (hkept hflag)
    rw [hsame, LocalState.flushed, if_pos hflag]
    exact hrow
  · rw [LocalState.flushed, if_neg hflag, LocalState.flushed, if_neg (hraised hflag),
      LocalState.row, LocalState.row, hfst]

end Package

section Calls

variable (env : Env)

/-- On every package that has a row, the edits of the batch come with news. -/
def KeepsRows (db : DiffLogDb) (batch : List Change) : Prop :=
  ∀ (name : String) (r : InternalDiffLogStateRow), db.internalDiffLogState[name]? = some r →
    EditsComeWithNews env.hasher r.load (changesOf env batch name)

/-- What a new manager would load for each package. -/
def LocalStates.ofTable (table : InternalDiffLogStateTable) : LocalStates :=
  fun name => LocalState.loaded table[name]?

variable {env} {db db' : DiffLogDb} {batch : List Change}

/-- A call in which all changes can be read. -/
theorem processAll_start (table : InternalDiffLogStateTable)
    (hparse : ∀ c ∈ batch, (c.parse env).isSome) :
    ∃ s table', processAll env table Progress.start batch = .ok s ∧
      s.stateManager.flushToDb table = some table' ∧
      s.newDiffEntries =
        LocalStates.emitted env.hasher (LocalStates.ofTable table) (parsedChanges env batch) ∧
      (∀ name, s.stateManager.localState table name = LocalState.after env.hasher
        (LocalState.loaded table[name]?) (changesOf env batch name)) ∧
      (∀ name, (s.stateManager.localState table name).Settled table[name]?) ∧
      ∀ name : String, table'[name]? =
        (s.stateManager.localState table name).flushed name table[name]? := by
  have hspec := processAll_spec env (s := Progress.start)
    (DiffStateManager.new_allSettled table) batch
  rw [if_pos hparse] at hspec
  obtain ⟨s, hrun, hfollows⟩ := hspec
  obtain ⟨table', hflush, hrows⟩ := DiffStateManager.flushToDb_localState hfollows.settled
  refine ⟨s, table', hrun, hflush, hfollows.entries, fun name => ?_, hfollows.settled, hrows⟩
  exact (congrFun hfollows.states name).trans (LocalStates.after_apply _ _ _ _)

/-- A call that returns has read all its changes. -/
theorem parse_isSome_of_processChanges {metrics : ProcessChangeSuccessMetrics}
    (h : processChanges env db batch = some (.ok (db', metrics))) :
    ∀ c ∈ batch, (c.parse env).isSome := by
  cases hrun : processAll env db.internalDiffLogState Progress.start batch with
  | error e => simp [processChanges, hrun] at h
  | ok s => exact (follows_of_processAll hrun).1

/-- The tables after a call that returns. -/
theorem processChanges_spec (db : DiffLogDb) (hparse : ∀ c ∈ batch, (c.parse env).isSome) :
    ∃ db' metrics, processChanges env db batch = some (.ok (db', metrics)) ∧
      db'.diffLog = db.diffLog ++ (LocalStates.emitted env.hasher
        (LocalStates.ofTable db.internalDiffLogState) (parsedChanges env batch)).map (·.entry) ∧
      ∀ name : String, db'.internalDiffLogState[name]? = (LocalState.after env.hasher
        (LocalState.loaded db.internalDiffLogState[name]?) (changesOf env batch name)).flushed name
          db.internalDiffLogState[name]? := by
  obtain ⟨s, table', hrun, hflush, hentries, hstates, _, hrows⟩ :=
    processAll_start db.internalDiffLogState hparse
  refine ⟨_, _, by simp only [processChanges, hrun, DiffLogDb.flush, hflush]; rfl, ?_, ?_⟩
  · rw [hentries]
  · intro name
    rw [← hstates]
    exact hrows name

/-- A call that returns writes back what it has in memory exactly when it keeps the rows. -/
theorem writesBack_iff (hparse : ∀ c ∈ batch, (c.parse env).isSome) :
    WritesBack env db batch ↔ KeepsRows env db batch := by
  obtain ⟨s, table', hrun, hflush, _, hstates, hsettled, hrows⟩ :=
    processAll_start db.internalDiffLogState hparse
  have hiff : WritesBack env db batch ↔ ∀ name,
      (LocalState.loaded table'[name]?).1 =
        (s.stateManager.localState db.internalDiffLogState name).1 := by
    simp only [WritesBack, hrun, Except.ok.injEq, DiffStateManager.lookupPackage_fst]
    constructor
    · intro h name
      exact h s table' rfl hflush name
    · rintro h _ _ rfl hflush' name
      rw [hflush] at hflush'
      cases hflush'
      exact h name
  rw [hiff]
  refine forall_congr' fun name => ?_
  have hname := hsettled name
  rw [hrows, hstates] at *
  exact loaded_flushed_iff name _ _ hname

theorem runChangeBatches_cons {batches : List (List Change)}
    (h : (runChangeBatches env db (batch :: batches)).isSome) :
    ∃ db' metrics, processChanges env db batch = some (.ok (db', metrics)) ∧
      runChangeBatches env db (batch :: batches) = runChangeBatches env db' batches := by
  rw [runChangeBatches] at h ⊢
  split at h
  · rename_i db' metrics hcall
    exact ⟨db', metrics, hcall, rfl⟩
  · cases h

/-- On a run that returns, a property of the calls can be replaced by an equivalent one. -/
theorem everyCall_congr {Q Q' : DiffLogDb → List Change → Prop}
    (hiff : ∀ db batch, (∀ c ∈ batch, (Change.parse env c).isSome) → (Q db batch ↔ Q' db batch))
    {batches : List (List Change)} (hrun : (runChangeBatches env db batches).isSome) :
    EveryCall env Q db batches ↔ EveryCall env Q' db batches := by
  induction batches generalizing db with
  | nil => exact Iff.rfl
  | cons batch batches ih =>
    obtain ⟨db', metrics, hcall, htail⟩ := runChangeBatches_cons hrun
    rw [htail] at hrun
    rw [EveryCall, EveryCall, hiff db batch (parse_isSome_of_processChanges hcall)]
    simp only [hcall, Option.some.injEq, Except.ok.injEq, Prod.mk.injEq, and_imp]
    refine and_congr_right fun _ => ⟨?_, ?_⟩
    all_goals
      rintro h _ _ rfl rfl
      have hrest := h _ _ rfl rfl
      first | exact (ih hrun).mp hrest | exact (ih hrun).mpr hrest

/-- The tables that separate calls leave, seen from one call that has begun on `table₀` and is now
in the local states `L`. -/
theorem runChangeBatches_simulates (table₀ : InternalDiffLogStateTable) {L : LocalStates}
    {batches : List (List Change)} (hrun : runChangeBatches env db batches = some db')
    (hkeeps : EveryCall env (WritesBack env) db batches)
    (hstates : ∀ name : String, (L name).1 = (LocalState.loaded db.internalDiffLogState[name]?).1)
    (hrows : ∀ name : String, db.internalDiffLogState[name]? = (L name).flushed name table₀[name]?) :
    (∀ c ∈ batches.flatten, (c.parse env).isSome) ∧
      db'.diffLog = db.diffLog ++
        (LocalStates.emitted env.hasher L (parsedChanges env batches.flatten)).map (·.entry) ∧
      ∀ name : String, db'.internalDiffLogState[name]? =
        (LocalStates.after env.hasher L (parsedChanges env batches.flatten) name).flushed name
          table₀[name]? := by
  induction batches generalizing db L with
  | nil =>
    cases hrun
    exact ⟨by simp, by simp [parsedChanges, LocalStates.emitted], hrows⟩
  | cons batch batches ih =>
    obtain ⟨db₁, metrics, hcall, htail⟩ := runChangeBatches_cons (by rw [hrun]; rfl)
    have hparse := parse_isSome_of_processChanges hcall
    rw [htail] at hrun
    obtain ⟨db₂, metrics₂, hcall₂, hlog, htable⟩ := processChanges_spec db hparse
    rw [hcall] at hcall₂
    cases hcall₂
    have hafter (name : String) :
        LocalStates.after env.hasher L (parsedChanges env batch) name =
          LocalState.after env.hasher (L name) (changesOf env batch name) :=
      LocalStates.after_apply _ _ _ _
    have hback (name : String) :
        (LocalState.loaded db₁.internalDiffLogState[name]?).1 = (LocalState.after env.hasher
          (LocalState.loaded db.internalDiffLogState[name]?) (changesOf env batch name)).1 := by
      obtain ⟨s, table', hall, hflush, _, hlocal, _, hrows'⟩ :=
        processAll_start db.internalDiffLogState hparse
      have hname := hkeeps.1 s table' hall hflush name
      rw [DiffStateManager.lookupPackage_fst, DiffStateManager.lookupPackage_fst, hlocal] at hname
      rw [htable, ← hlocal, ← hrows', hlocal]
      exact hname
    obtain ⟨hparse', hlog', hrows'⟩ := ih (L := LocalStates.after env.hasher L
      (parsedChanges env batch)) hrun (hkeeps.2 db₁ metrics hcall)
      (fun name => by rw [hback, hafter]; exact after_fst_congr (hstates name) _)
      (fun name => by
        rw [hafter, htable]
        exact flushed_after_eq (hstates name) (hrows name) (by rw [← htable]; exact hback name))
    rw [List.flatten_cons, parsedChanges_append, LocalStates.emitted_append,
      LocalStates.after_append]
    refine ⟨?_, ?_, hrows'⟩
    · intro c hc
      rcases List.mem_append.mp hc with h | h
      · exact hparse c h
      · exact hparse' c h
    · have hemitted : LocalStates.emitted env.hasher L (parsedChanges env batch) =
          LocalStates.emitted env.hasher (LocalStates.ofTable db.internalDiffLogState)
            (parsedChanges env batch) := LocalStates.emitted_congr env.hasher hstates _
      rw [hlog', hlog, hemitted, List.map_append, List.append_assoc]

/-- Splitting the changes into calls changes nothing, and every call writes back what it has in
memory, exactly when every call keeps the rows. -/
theorem splitInvariant_iff (env : Env) (db : DiffLogDb) (batches : List (List Change))
    (hrun : (runChangeBatches env db batches).isSome) :
    SplitInvariant env db batches ↔ EveryCall env (KeepsRows env) db batches := by
  rw [← everyCall_congr (fun _ _ hparse => writesBack_iff hparse) hrun]
  refine ⟨fun h => h.2, fun hkeeps => ⟨?_, hkeeps⟩⟩
  obtain ⟨db', hdb'⟩ := Option.isSome_iff_exists.mp hrun
  obtain ⟨hparse, hlog, hrows⟩ := runChangeBatches_simulates db.internalDiffLogState
    (L := LocalStates.ofTable db.internalDiffLogState) hdb' hkeeps (fun _ => rfl) (fun _ => rfl)
  obtain ⟨db₁, metrics, hcall, hlog₁, hrows₁⟩ := processChanges_spec db hparse
  have hone : runChangeBatches env db [batches.flatten] = some db₁ := by
    simp only [runChangeBatches, hcall]
  rw [hdb', hone]
  obtain ⟨table, log⟩ := db'
  obtain ⟨table₁, log₁⟩ := db₁
  have htable : table₁ = table := ExtTreeMap.ext_getElem? fun name => by
    rw [hrows, hrows₁, LocalStates.after_apply]
    rfl
  cases htable
  cases hlog.trans hlog₁.symm
  rfl

theorem splitInvariant_iff_republished : SplitInvariant sampleEnv ⟨∅, []⟩
      [[sampleChange 1 [] [("1.0.0", "a")]], [sampleChange 2 [] [("1.0.0", "a"), ("2.0.0", "b")]]] ↔
    EveryCall sampleEnv (KeepsRows sampleEnv) ⟨∅, []⟩
      [[sampleChange 1 [] [("1.0.0", "a")]], [sampleChange 2 [] [("1.0.0", "a"), ("2.0.0", "b")]]] :=
  splitInvariant_iff sampleEnv ⟨∅, []⟩ _ (by decide +kernel)

/-- A version that the second change has dropped is deleted again by the third call, since the
second one has not written the package back. -/
theorem not_splitInvariant : ∃ batches, (runChangeBatches sampleEnv ⟨∅, []⟩ batches).isSome ∧
    runChangeBatches sampleEnv ⟨∅, []⟩ [batches.flatten] ≠
      runChangeBatches sampleEnv ⟨∅, []⟩ batches := by
  refine ⟨[[sampleChange 1 [] [("1.0.0", "a"), ("2.0.0", "b")]],
    [sampleChange 2 [] [("1.0.0", "a")]], [sampleChange 3 [] [("1.0.0", "a")]]],
    by decide +kernel, fun heq => ?_⟩
  have hlength := congrArg (Option.map fun db => db.diffLog.length) heq
  revert hlength
  decide +kernel

end Calls

end NpmFollower.DiffLogBuilder
