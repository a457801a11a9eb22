import NpmFollower.HistoricSolverJob.JobCounter
import NpmFollower.Library.FiniteMap
import NpmFollower.Library.Folds
import NpmFollower.Library.Hoare

/-! # The history of a job

A job records every solve that gives a solution. Its result can be read off this
history: which versions of the updated package the first solve found, and how the
solves after the update went on until the old version was gone, the dependency
was removed, a solve failed or a year was over.
-/

namespace NpmFollower.HistoricSolverJob

open PostgresDb SemverSpecSerialization

/-! ## What one solve records -/

/-- The solution of a solve at the given time, with its lock file; a package without versions is not
in it. -/
structure SolveSolutionMetrics.At (dt : DateTime) (lock : Value) (m : SolveSolutionMetrics) :
    Prop where
  solveTime : m.solveTime = dt
  fullPackageLock : m.fullPackageLock = lock
  nonempty : ∀ (package : String) (versions : HashSet Semver),
    m.deps[package]? = some versions → versions.elements ≠ []

namespace SolveSolutionMetrics

variable {m : SolveSolutionMetrics} {dt : DateTime} {lock : Value} {package : String} {v : Semver}

theorem at_new (v : Semver) (dt : DateTime) (lock : Value) : (new v dt lock).At dt lock :=
  ⟨rfl, rfl, fun package versions h => by simp [new] at h⟩

theorem At.pushDep (h : m.At dt lock) (package : String) (v : Semver) :
    (m.pushDep package v).At dt lock := by
  refine ⟨h.solveTime, h.fullPackageLock, fun name versions hget => ?_⟩
  rw [SolveSolutionMetrics.pushDep, FiniteMap.getElem?_insert] at hget
  split_ifs at hget with hname
  · obtain rfl := Option.some.inj hget
    rw [HashSet.insert]
    split_ifs with hmem
    · exact List.ne_nil_of_mem hmem
    · simp
  · exact h.nonempty name versions hget

/-- The versions that a solve records. -/
theorem mem_updateVersions :
    v ∈ (m.toSolveResult package).updateVersions ↔ m.contains package v = true := by
  rw [toSolveResult, List.mem_mergeSort, contains]
  cases m.deps[package]? <;> simp

theorem At.updateVersions_eq_nil_iff (h : m.At dt lock) :
    (m.toSolveResult package).updateVersions = [] ↔ m.areDepsRemoved package = true := by
  rw [areDepsRemoved, Bool.not_eq_true', toSolveResult, Std.ExtTreeMap.contains_eq_isSome_getElem?]
  cases hget : m.deps[package]? with
  | none => simp
  | some versions =>
    have hne := h.nonempty package versions hget
    rw [Option.map_some, Option.getD_some]
    refine iff_of_false (fun hnil => hne ?_) (by simp)
    have hlength : (versions.elements.mergeSort fun a b => (compare a b).isLE).length = 0 :=
      List.length_eq_zero_iff.mpr hnil
    rwa [List.length_mergeSort, List.length_eq_zero_iff] at hlength

theorem allOldGone_eq_some {old : Semver} {b : Bool} (h : m.allOldGone package old = some b) :
    b = true ↔ ∀ v ∈ (m.toSolveResult package).updateVersions, compare old v = .lt := by
  obtain ⟨versions, hget, rfl⟩ := Option.map_eq_some_iff.mp h
  simp [toSolveResult, hget]

end SolveSolutionMetrics

namespace Readers

variable {R : Readers} {S : Surroundings} {job : Job} {doc : ParsedPackument Unit}

theorem pushLocked_at {m m' : SolveSolutionMetrics} {dt : DateTime} {lock : Value}
    {dep : String × Value} (h : m.At dt lock) (hpush : R.pushLocked m dep = .ok m') :
    m'.At dt lock := by
  rw [pushLocked] at hpush
  split_ifs at hpush
  · exact Except.ok.inj hpush ▸ h
  · obtain ⟨depInfo, -, hrest⟩ := Folds.ok_of_bind hpush
    split_ifs at hrest
    · exact Except.ok.inj hrest ▸ h
    · split at hrest
      · exact Except.ok.inj hrest ▸ h
      · obtain ⟨⟨name, version⟩, -, hrest⟩ := Folds.ok_of_bind hrest
        exact Except.ok.inj hrest ▸ h.pushDep name version

theorem readLock_at {v : Semver} {dt : DateTime} {lock : Value} {m : SolveSolutionMetrics}
    (h : R.readLock v dt lock = .ok m) : m.At dt lock := by
  obtain ⟨lockObj, -, h⟩ := Folds.ok_of_bind h
  obtain ⟨deps, -, h⟩ := Folds.ok_of_bind h
  obtain ⟨deps, -, h⟩ := Folds.ok_of_bind h
  refine Folds.foldlM_ok (I := fun _ m => m.At dt lock) h (SolveSolutionMetrics.at_new v dt lock) ?_
  exact fun _ _ _ _ _ _ hm hpush => pushLocked_at hm hpush

/-- A solve fails on a missing version or because npm does. -/
theorem solveDependencies_ok {dt : DateTime} {name : String}
    {r : Except FailedSolve SolveSolutionMetrics} (h : R.solveDependencies S doc dt name = .ok r) :
    match r with
    | .error failed => failed.err = .downstreamMissingVersion ∨ failed.err = .solveError
    | .ok m => ∃ v lock, m.At dt lock ∧ R.readLock v dt lock = .ok m := by
  obtain ⟨most, -, h⟩ := Folds.ok_of_bind h
  cases most with
  | none =>
    obtain rfl := Except.ok.inj h
    exact Or.inl rfl
  | some found =>
    obtain ⟨install, -, h⟩ := Folds.ok_of_bind h
    cases install with
    | failed stdout stderr =>
      obtain rfl := Except.ok.inj h
      exact Or.inr rfl
    | installed lock =>
      obtain ⟨m, hm, h⟩ := Folds.ok_of_bind h
      obtain rfl := Except.ok.inj h
      exact ⟨found.1, lock, readLock_at hm, hm⟩

end Readers

/-! ## What a history says -/

namespace Job

variable (job : Job)

/-- The time of the first solve, before the update. -/
def before : DateTime := job.updateToTime - epsilon

/-- The time of a solve after the update, by the number of days that have passed. -/
def after (k : ℕ) : DateTime := job.updateToTime + epsilon + days k

/-- An old version is still there. -/
def Waiting (r : SolveResult) : Prop :=
  r.updateVersions ≠ [] ∧ ∃ v ∈ r.updateVersions, compare job.updateFromVersion v ≠ .lt

/-- How the solves from the given day on end. -/
inductive Ending (k : ℕ) : Except Readers.FailedSolve Unit → List SolveResult → Prop where
  /-- Every version that is left is newer. -/
  | gone (rs : List SolveResult) (r : SolveResult) (hrs : ∀ x ∈ rs, job.Waiting x)
      (hne : r.updateVersions ≠ [])
      (hnew : ∀ v ∈ r.updateVersions, compare job.updateFromVersion v = .lt) :
      Ending k (.ok ()) (rs ++ [r])
  | removedDep (rs : List SolveResult) (r : SolveResult) (hrs : ∀ x ∈ rs, job.Waiting x)
      (hnil : r.updateVersions = []) :
      Ending k (.error ⟨.removedDep, [], []⟩) (rs ++ [r])
  /-- The old version was there on every day of the year. -/
  | gaveUp (rs : List SolveResult) (hrs : ∀ x ∈ rs, job.Waiting x) (hlast : k + rs.length = 365) :
      Ending k (.error ⟨.gaveUp, [], []⟩) rs
  | failed (rs : List SolveResult) (solve : Readers.FailedSolve) (hrs : ∀ x ∈ rs, job.Waiting x)
      (herr : solve.err = .downstreamMissingVersion ∨ solve.err = .solveError) :
      Ending k (.error solve) rs

variable {job} {k : ℕ}

theorem Ending.cons {result : Except Readers.FailedSolve Unit} {rs : List SolveResult} {x : SolveResult}
    (h : job.Ending (k + 1) result rs) (hx : job.Waiting x) : job.Ending k result (x :: rs) := by
  have hcons (rs : List SolveResult) (hrs : ∀ x ∈ rs, job.Waiting x) :
      ∀ y ∈ x :: rs, job.Waiting y := by
    intro y hy
    rcases List.mem_cons.mp hy with rfl | hy
    · exact hx
    · exact hrs y hy
  cases h with
  | gone rs r hrs hne hnew => exact .gone (x :: rs) r (hcons rs hrs) hne hnew
  | removedDep rs r hrs hnil => exact .removedDep (x :: rs) r (hcons rs hrs) hnil
  | gaveUp _ hrs hlast =>
    refine .gaveUp (x :: rs) (hcons rs hrs) ?_
    rw [List.length_cons]
    omega
  | failed _ solve hrs herr => exact .failed (x :: rs) solve (hcons rs hrs) herr

theorem nextTime_after : nextTime job.updateToTime (job.after k) =
    if k < 364 then some (job.after (k + 1)) else none := by
  have hstep : job.after k + days 1 = job.after (k + 1) := by
    simp only [after, days, seconds]
    push_cast
    ring
  have hdays : job.after (k + 1) - job.updateToTime = epsilon + days (k + 1 : ℕ) := by
    rw [after]
    ring
  have hlate : days 365 < epsilon + days (k + 1 : ℕ) ↔ ¬k < 364 := by
    rw [days, days, seconds, seconds, epsilon, seconds]
    push_cast
    omega
  rw [nextTime, hstep, hdays]
  by_cases hk : k < 364
  · rw [if_pos hk, if_neg fun h => hlate.mp h hk]
  · rw [if_neg hk, if_pos (hlate.mpr hk)]

end Job

namespace Readers

variable {R : Readers} {S : Surroundings} {job : Job} {doc : ParsedPackument Unit}

/-- One round of the loop, by what the solve of the day finds. -/
theorem solveLoop_round {k : ℕ} {history : List SolveResult} {run : SolveRun}
    (h : R.solveLoop S job doc (job.after k) history = .ok run) :
    (∃ solve : FailedSolve, (solve.err = .downstreamMissingVersion ∨ solve.err = .solveError) ∧
      run = ⟨.error solve, history⟩) ∨
    ∃ r : SolveResult, r.solveTime = job.after k ∧
      (r.updateVersions = [] ∧ run = gone .removedDep (history ++ [r]) ∨
        (r.updateVersions ≠ [] ∧ ∀ v ∈ r.updateVersions, compare job.updateFromVersion v = .lt) ∧
          run = ⟨.ok (), history ++ [r]⟩ ∨
        job.Waiting r ∧ if k < 364 then
            R.solveLoop S job doc (job.after (k + 1)) (history ++ [r]) = .ok run
          else run = gone .gaveUp (history ++ [r])) := by
  rw [solveLoop] at h
  obtain ⟨solve, hsolve, h⟩ := Folds.ok_of_bind h
  have hat := solveDependencies_ok hsolve
  cases solve with
  | error solve => exact Or.inl ⟨solve, hat, (Except.ok.inj h).symm⟩
  | ok m =>
    obtain ⟨v, lock, hat, -⟩ := hat
    refine Or.inr ⟨m.toSolveResult job.updatePackageName, hat.solveTime, ?_⟩
    obtain ⟨verdict, hverdict, h⟩ := Folds.ok_of_bind h
    rw [judge] at hverdict
    split_ifs at hverdict with hremoved
    · obtain rfl := Except.ok.inj hverdict
      exact Or.inl ⟨hat.updateVersions_eq_nil_iff.mpr hremoved, (Except.ok.inj h).symm⟩
    · have hne := fun hnil => hremoved (hat.updateVersions_eq_nil_iff.mp hnil)
      obtain ⟨allOld, hall, hverdict⟩ := Folds.ok_of_bind hverdict
      have hold := SolveSolutionMetrics.allOldGone_eq_some (expect_eq_ok.mp hall)
      obtain rfl := Except.ok.inj hverdict
      cases allOld with
      | true => exact Or.inr (Or.inl ⟨⟨hne, hold.mp rfl⟩, (Except.ok.inj h).symm⟩)
      | false =>
        have hwaiting : job.Waiting (m.toSolveResult job.updatePackageName) := by
          have hnot := mt hold.mpr Bool.false_ne_true
          push Not at hnot
          exact ⟨hne, hnot⟩
        refine Or.inr (Or.inr ⟨hwaiting, ?_⟩)
        simp only [Bool.false_eq_true, if_false] at h
        split_ifs with hk
        · split at h
          · next heq =>
            rw [Job.nextTime_after, if_pos hk] at heq
            rwa [Option.some.inj heq]
          · next heq =>
            rw [Job.nextTime_after, if_pos hk] at heq
            cases heq
        · split at h
          · next heq =>
            rw [Job.nextTime_after, if_neg hk] at heq
            cases heq
          · exact (Except.ok.inj h).symm

/-- From one day on, the loop adds a solve for every day until it ends. -/
theorem solveLoop_ok {k : ℕ} (hk : k ≤ 364) {history : List SolveResult} {run : SolveRun}
    (h : R.solveLoop S job doc (job.after k) history = .ok run) :
    ∃ more, run.history = history ++ more ∧ job.Ending k run.result more ∧
      k + more.length ≤ 365 ∧
      more.map (·.solveTime) = (List.range' k more.length).map job.after := by
  obtain ⟨n, hn⟩ : ∃ n, k + n = 365 := ⟨365 - k, by omega⟩
  have hnone : ∀ x ∈ ([] : List SolveResult), job.Waiting x := fun x hx => absurd hx List.not_mem_nil
  induction n generalizing k history with
  | zero => omega
  | succ n ih =>
    rcases solveLoop_round h with ⟨solve, herr, rfl⟩ | ⟨r, htime, hround⟩
    · exact ⟨[], (List.append_nil _).symm, .failed [] solve hnone herr, by simp; omega, rfl⟩
    · rcases hround with ⟨hnil, rfl⟩ | ⟨⟨hne, hnew⟩, rfl⟩ | ⟨hwaiting, hrest⟩
      · exact ⟨[r], rfl, .removedDep [] r hnone hnil, by simp; omega, by simp [htime]⟩
      · exact ⟨[r], rfl, .gone [] r hnone hne hnew, by simp; omega, by simp [htime]⟩
      · split_ifs at hrest with hnext
        · obtain ⟨more, hhistory, hending, hlength, htimes⟩ := ih (by omega) hrest (by omega)
          refine ⟨r :: more, ?_, hending.cons hwaiting, ?_, ?_⟩
          · rw [hhistory, List.append_assoc, List.singleton_append]
          · rw [List.length_cons]
            omega
          · rw [List.map_cons, htimes, htime, List.length_cons, List.range'_succ, List.map_cons]
        · subst hrest
          have hlast : k + [r].length = 365 := by
            rw [List.length_singleton]
            omega
          exact ⟨[r], rfl, .gaveUp [r] (by simpa using hwaiting) hlast, hlast.le,
            by simp [htime]⟩

end Readers

namespace Job

variable (job : Job)

/-- The times at which a job solves at most. -/
def schedule : List DateTime := job.before :: (List.range 365).map job.after

/-- How a job ends, by the solves in its history. -/
inductive Recorded : Readers.SolveRun → Prop where
  | missingPackage : Recorded (Readers.gone .downstreamMissingPackage [])
  | notSolved (solve : Readers.FailedSolve)
      (herr : solve.err = .downstreamMissingVersion ∨ solve.err = .solveError) :
      Recorded ⟨.error solve, []⟩
  | fromMissingPackage (first : SolveResult) (htime : first.solveTime = job.before)
      (hnil : first.updateVersions = []) :
      Recorded (Readers.gone .fromMissingPackage [first])
  | fromMissingVersion (first : SolveResult) (htime : first.solveTime = job.before)
      (hne : first.updateVersions ≠ []) (hnot : job.updateFromVersion ∉ first.updateVersions) :
      Recorded (Readers.gone .fromMissingVersion [first])
  | followed (first : SolveResult) (rs : List SolveResult)
      (result : Except Readers.FailedSolve Unit) (htime : first.solveTime = job.before)
      (hfrom : job.updateFromVersion ∈ first.updateVersions) (hending : job.Ending 0 result rs)
      (hlength : rs.length ≤ 365)
      (htimes : rs.map (·.solveTime) = (List.range rs.length).map job.after) :
      Recorded ⟨result, first :: rs⟩

theorem Recorded.times {run : Readers.SolveRun} (h : job.Recorded run) :
    run.history.map (·.solveTime) <+: job.schedule := by
  cases h with
  | missingPackage => exact List.nil_prefix
  | notSolved => exact List.nil_prefix
  | fromMissingPackage first htime =>
    exact ⟨(List.range 365).map job.after, by simp [Readers.gone, schedule, htime]⟩
  | fromMissingVersion first htime =>
    exact ⟨(List.range 365).map job.after, by simp [Readers.gone, schedule, htime]⟩
  | followed first rs result htime hfrom hending hlength htimes =>
    rw [List.map_cons, schedule, htime, htimes]
    have hrange := List.take_prefix rs.length (List.range 365)
    rw [List.take_range, min_eq_left hlength] at hrange
    exact (List.prefix_cons_inj _).mpr (hrange.map _)

end Job

namespace Readers

variable {R : Readers} {S : Surroundings} {job : Job}

theorem runSolveJobResult_recorded {run : SolveRun} (h : R.runSolveJobResult S job = .ok run) :
    job.Recorded run := by
  obtain ⟨doc, -, h⟩ := Folds.ok_of_bind h
  obtain ⟨doc, -, h⟩ := Folds.ok_of_bind h
  obtain ⟨parsed, -, h⟩ := Folds.ok_of_bind h
  cases parsed with
  | none => exact Except.ok.inj h ▸ .missingPackage
  | some doc =>
    obtain ⟨solve, hsolve, h⟩ := Folds.ok_of_bind h
    have hat := solveDependencies_ok hsolve
    cases solve with
    | error solve => exact Except.ok.inj h ▸ .notSolved solve hat
    | ok m =>
      obtain ⟨v, lock, hat, -⟩ := hat
      have htime : (m.toSolveResult job.updatePackageName).solveTime = job.before := hat.solveTime
      dsimp only at h
      split_ifs at h with hfrom hremoved
      · obtain ⟨rs, hhistory, hending, hlength, htimes⟩ := solveLoop_ok (Nat.zero_le 364)
          (by simpa [Job.after, days, seconds] using h)
        obtain ⟨result, history⟩ := run
        rw [Nat.zero_add] at hlength
        subst hhistory
        rw [← List.range_eq_range'] at htimes
        exact .followed _ rs result htime (SolveSolutionMetrics.mem_updateVersions.mpr hfrom)
          hending hlength htimes
      · exact Except.ok.inj h ▸ .fromMissingPackage _ htime
          (hat.updateVersions_eq_nil_iff.mpr hremoved)
      · refine Except.ok.inj h ▸ .fromMissingVersion _ htime (fun hnil => hremoved ?_) fun hmem => ?_
        · exact hat.updateVersions_eq_nil_iff.mp hnil
        · exact hfrom (SolveSolutionMetrics.mem_updateVersions.mp hmem)

/-- The first solve of a history left a lock file that can be read. -/
theorem readLock_of_head {run : SolveRun} (h : R.runSolveJobResult S job = .ok run)
    {first : SolveResult} (hfirst : run.history.head? = some first) :
    ∃ v dt m, R.readLock v dt first.fullPackageLock = .ok m := by
  obtain ⟨doc, -, h⟩ := Folds.ok_of_bind h
  obtain ⟨doc, -, h⟩ := Folds.ok_of_bind h
  obtain ⟨parsed, -, h⟩ := Folds.ok_of_bind h
  cases parsed with
  | none =>
    rw [← Except.ok.inj h] at hfirst
    cases hfirst
  | some doc =>
    obtain ⟨solve, hsolve, h⟩ := Folds.ok_of_bind h
    have hat := solveDependencies_ok hsolve
    cases solve with
    | error solve =>
      rw [← Except.ok.inj h] at hfirst
      cases hfirst
    | ok m =>
      obtain ⟨v, lock, hat, hread⟩ := hat
      have hhead : run.history.head? = some (m.toSolveResult job.updatePackageName) := by
        dsimp only at h
        split_ifs at h
        · obtain ⟨rs, hhistory, -⟩ := solveLoop_ok (Nat.zero_le 364)
            (by simpa [Job.after, days, seconds] using h)
          rw [hhistory]
          rfl
        · rw [← Except.ok.inj h]
          rfl
        · rw [← Except.ok.inj h]
          rfl
      obtain rfl := Option.some.inj (hfirst.symm.trans hhead)
      refine ⟨v, job.updateToTime - epsilon, m, ?_⟩
      rwa [SolveSolutionMetrics.toSolveResult, hat.fullPackageLock]

/-- A result that a job reports says what its history shows, and the history has the solves of the
schedule up to the last. -/
theorem runSolveJob_history {result : JobResult} (h : R.runSolveJob S job = .ok result) :
    ∃ run, job.Recorded run ∧ result = R.jobResult job run ∧
      result.solveHistory.map (·.solveTime) <+: job.schedule := by
  obtain ⟨run, hrun, h⟩ := Folds.ok_of_bind h
  obtain rfl := Except.ok.inj h
  have hrecorded := runSolveJobResult_recorded hrun
  exact ⟨run, hrecorded, rfl, hrecorded.times⟩

end Readers

/-- npm finds the old version before the update, and the new one after it. -/
def lodashUpdates : Surroundings where
  registryNow _ := .ok (.object twoReleases)
  npmInstall _ dt := .ok <| .installed <| .object [("packages", .object
    [("", .object []), ("node_modules/lodash",
      .object [("version", .string (if dt < 2000000000000 then "1.0.0" else "2.0.0"))])])]

def lodashUpdated : Job := { lodashJob with updateToTime := 2000000000000 }

theorem Readers.history_lodashUpdated : ∃ result,
    asciiReaders.runSolveJob lodashUpdates lodashUpdated = .ok result ∧
      result.resultCategory = "Ok" ∧
      result.solveHistory.map (·.solveTime) <+: lodashUpdated.schedule := by
  have hrun : (asciiReaders.runSolveJob lodashUpdates lodashUpdated).toOption.map
      (·.resultCategory) = some "Ok" := by
    decide +kernel
  obtain ⟨result, hresult, hcategory⟩ := Hoare.exists_ok_of_toOption hrun
  obtain ⟨run, -, -, htimes⟩ := runSolveJob_history hresult
  exact ⟨result, hresult, hcategory, htimes⟩

end NpmFollower.HistoricSolverJob
