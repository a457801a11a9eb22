import NpmFollower.HistoricSolverJob.JobCounter
import NpmFollower.Library.ClaimTable
import NpmFollower.Library.Rows

/-! # The tables of the solver's jobs

Nodes take jobs out of one table and put results into another. The result and the
new state of its job are two statements. Scripts run by hand set jobs back whose
nodes are gone, or mark jobs whose result is there.
-/

namespace NpmFollower.HistoricSolverJob

open PostgresDb ClaimTable

abbrev JobKey := ℤ × ℤ × ℤ

def Job.key (job : Job) : JobKey :=
  (job.updateFromId, job.updateToId, job.downstreamPackageId)

def JobResult.key (result : JobResult) : JobKey :=
  (result.updateFromId, result.updateToId, result.downstreamPackageId)

inductive JobState where
  | none
  | started
  | done
deriving DecidableEq

def JobState.status : JobState → Status
  | .none => .todo
  | .started => .started
  | .done => .done

structure JobInput where
  job : Job
  jobState : JobState
  workNode : Option String

namespace JobInput

def key (row : JobInput) : JobKey := row.job.key

/-- The two ids that the queries sort by. -/
def ids (row : JobInput) : ℤ ×ₗ ℤ := toLex (row.job.updateFromId, row.job.downstreamPackageId)

end JobInput

structure JobTables where
  inputs : List JobInput
  results : List JobResult

namespace JobTables

def empty : JobTables := ⟨[], []⟩

def resultKeys (t : JobTables) : List JobKey := t.results.map JobResult.key

/-- The rows with the property get a new state and a new node. -/
def setState (t : JobTables) (p : JobInput → Bool) (jobState : JobState)
    (workNode : Option String → Option String) : JobTables :=
  { t with
    inputs := t.inputs.map fun row =>
      if p row then { row with jobState, workNode := workNode row.workNode } else row }

/-! ## The queries of a node -/

/-- The rows that are to do, less those that other transactions have locked. -/
def unlocked (t : JobTables) (locked : List JobKey) : List JobInput :=
  t.inputs.filter fun row => row.jobState = .none ∧ row.key ∉ locked

def testKey : JobKey := (29256283, 29528818, 2465926)

/-- A node of the name `TEST` gets its job without marking it; `none` is the panic on a negative
limit. -/
def handleGetJobs (numJobs : ℤ) (nodeName : String) (locked : List JobKey) (t : JobTables) :
    Option (List Job × JobTables) :=
  if numJobs < 0 then none
  else if nodeName = "TEST" then
    let cte := (((t.unlocked locked).filter (·.key = testKey)).insertionSort
      (·.ids ≤ ·.ids)).take numJobs.toNat
    some (cte.map (·.job), t)
  else
    let cte := ((t.unlocked locked).insertionSort (·.ids ≥ ·.ids)).take numJobs.toNat
    some (cte.map (·.job),
      t.setState (fun row => row.key ∈ cte.map JobInput.key) .started fun _ => some nodeName)

/-- The first statement of `handle_submit_result`; `none` is the panic on a key that is there. -/
def insertResult (result : JobResult) (t : JobTables) : Option JobTables :=
  if result.key ∈ t.resultKeys then none else some { t with results := t.results ++ [result] }

/-- The second statement of `handle_submit_result`. -/
def markDone (result : JobResult) (t : JobTables) : JobTables :=
  t.setState (·.key = result.key) .done id

/-! ## The scripts -/

/-- A row of `fill_job_input`; a key that is there is refused. -/
def fillJobInput (job : Job) (t : JobTables) : Option JobTables :=
  if job.key ∈ t.inputs.map JobInput.key then none
  else some { t with inputs := t.inputs ++ [⟨job, .none, none⟩] }

def jobInputGc (t : JobTables) : JobTables :=
  t.setState (fun row => row.jobState = .started ∧ row.key ∈ t.resultKeys) .done id

def jobInputKillZombies (t : JobTables) : JobTables :=
  t.setState (fun row => row.jobState = .started ∧ row.key ∉ t.resultKeys) .none fun _ => none

def requeueMissingResults (t : JobTables) : JobTables :=
  t.setState (fun row => row.jobState = .done ∧ row.key ∉ t.resultKeys) .none fun _ => none

def requeueFromMissing (t : JobTables) : JobTables :=
  let fromMissing := (t.results.filter (·.resultCategory = "FromMissing")).map JobResult.key
  let t := t.setState (fun row => row.jobState = .done ∧ row.key ∈ fromMissing) .none fun _ => none
  { t with results := t.results.filter (·.resultCategory ≠ "FromMissing") }

def resetJobs (t : JobTables) : JobTables :=
  { t.setState (fun row => row.jobState ≠ .none) .none fun _ => none with results := [] }

/-! ## What the statements do to the states -/

def status (t : JobTables) (k : JobKey) : Option Status :=
  (Rows.find JobInput.key t.inputs k).map (·.jobState.status)

variable {t t' : JobTables}

section SetState

variable {p : JobInput → Bool} {q : JobKey → Status → Bool} {jobState : JobState}
  {workNode : Option String → Option String}

theorem status_setState (hp : ∀ row, p row = q row.key row.jobState.status) :
    (t.setState p jobState workNode).status = restate t.status q jobState.status := by
  funext k
  have hkey : ∀ row : JobInput, (if p row then { row with
      jobState := jobState, workNode := workNode row.workNode } else row).key = row.key := by
    intro row
    split_ifs <;> rfl
  rw [status, setState, Rows.find_map hkey, restate, status, Option.map_map, Option.map_map]
  refine Option.map_congr fun row hrow => ?_
  have hk := Rows.key_of_find hrow
  rw [Function.comp_apply, Function.comp_apply, ← hk, ← hp]
  split_ifs <;> rfl

theorem jobs_setState : (t.setState p jobState workNode).inputs.map (·.job) =
    t.inputs.map (·.job) := by
  rw [setState, List.map_map]
  refine List.map_congr_left fun row _ => ?_
  rw [Function.comp_apply]
  split_ifs <;> rfl

end SetState

theorem jobs_resetJobs : t.resetJobs.inputs.map (·.job) = t.inputs.map (·.job) :=
  @jobs_setState t (fun row => row.jobState ≠ .none) .none fun _ => none

theorem keys_eq (t : JobTables) : t.inputs.map JobInput.key = (t.inputs.map (·.job)).map Job.key := by
  rw [List.map_map]
  rfl

theorem status_eq_none_iff {k : JobKey} : t.status k = none ↔ k ∉ t.inputs.map JobInput.key := by
  rw [status, Option.map_eq_none_iff, Rows.find_eq_none_iff]
  simp

theorem status_of_mem (ht : (t.inputs.map JobInput.key).Nodup) {row : JobInput}
    (hrow : row ∈ t.inputs) : t.status row.key = some row.jobState.status := by
  rw [status, Rows.find_of_mem ht hrow]
  rfl

theorem status_fillJobInput {job : Job} (h : t.fillJobInput job = some t') :
    t.status job.key = none ∧ t'.status = Function.update t.status job.key (some .todo) ∧
      t'.inputs = t.inputs ++ [⟨job, .none, none⟩] ∧ t'.results = t.results := by
  rw [fillJobInput, Option.ite_none_left_eq_some] at h
  obtain ⟨hfresh, h⟩ := h
  obtain rfl := Option.some.inj h
  have hnone := status_eq_none_iff.mpr hfresh
  refine ⟨hnone, ?_, rfl, rfl⟩
  funext k
  rw [status, Rows.find_append_singleton]
  by_cases hk : k = job.key
  · subst hk
    have hkey : JobInput.key ⟨job, .none, none⟩ = job.key := rfl
    rw [Function.update_self, Option.map_eq_none_iff.mp hnone, Option.none_or, if_pos hkey]
    rfl
  · rw [Function.update_of_ne hk, if_neg (fun heq => hk heq.symm), Option.or_none]
    rfl

/-- The jobs of a batch, and what the query leaves. -/
theorem handleGetJobs_eq {numJobs : ℤ} {nodeName : String} {locked : List JobKey}
    {jobs : List Job} (ht : (t.inputs.map JobInput.key).Nodup) (hname : nodeName ≠ "TEST")
    (h : t.handleGetJobs numJobs nodeName locked = some (jobs, t')) :
    (jobs.length : ℤ) ≤ numJobs ∧ (∀ job ∈ jobs, job ∈ t.inputs.map (·.job)) ∧
      (jobs.map Job.key).Nodup ∧ (∀ k ∈ jobs.map Job.key, t.status k = some .todo) ∧
      t'.status = restate t.status (fun k _ => decide (k ∈ jobs.map Job.key)) .started ∧
      t'.inputs.map (·.job) = t.inputs.map (·.job) ∧ t'.results = t.results := by
  rw [handleGetJobs] at h
  split_ifs at h with hneg
  obtain ⟨rfl, rfl⟩ := Prod.mk.inj (Option.some.inj h)
  set cte := ((t.unlocked locked).insertionSort (·.ids ≥ ·.ids)).take numJobs.toNat
  have hmem : ∀ row ∈ cte, row ∈ t.unlocked locked := fun row hrow =>
    (List.perm_insertionSort _ _).mem_iff.mp (List.mem_of_mem_take hrow)
  have hkeys : (cte.map (·.job)).map Job.key = cte.map JobInput.key := by
    rw [List.map_map]
    rfl
  have hnodup : (cte.map JobInput.key).Nodup := by
    refine ((List.take_sublist _ _).map _).nodup ?_
    refine ((List.perm_insertionSort _ _).map _).nodup_iff.mpr ?_
    exact (List.filter_sublist.map _).nodup ht
  rw [hkeys]
  refine ⟨?_, ?_, hnodup, ?_, status_setState fun _ => rfl, jobs_setState, rfl⟩
  · have hlength : (cte.map (·.job)).length ≤ numJobs.toNat := by
      rw [List.length_map]
      exact List.length_take_le _ _
    omega
  · intro job hjob
    obtain ⟨row, hrow, rfl⟩ := List.mem_map.mp hjob
    exact List.mem_map_of_mem (List.mem_filter.mp (hmem row hrow)).1
  · intro k hk
    obtain ⟨row, hrow, rfl⟩ := List.mem_map.mp hk
    obtain ⟨hin, hcond⟩ := List.mem_filter.mp (hmem row hrow)
    rw [status_of_mem ht hin, (of_decide_eq_true hcond).1]
    rfl

end JobTables

end NpmFollower.HistoricSolverJob
