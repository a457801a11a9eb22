import NpmFollower.HistoricSolverJob.RestrictTime
import NpmFollower.HistoricSolverJob.RunSolveJob
import NpmFollower.Library.Runs
import NpmFollower.SemverSpecSerialization.Grammar

/-! # The counter of the active jobs

The main task of the solver fetches a batch of jobs, raises the counter, spawns
a task for each of them, and then lowers the counter by one for each result it
has written, until the counter is zero. The tasks of the jobs end in any order
between its steps, with a result that is sent or with a panic.
-/

namespace NpmFollower.HistoricSolverJob

open PostgresDb Runs

def jobsPerThread : ℤ := 8

structure Configuration where
  numThreads : ℤ

namespace Configuration

variable (config : Configuration)

def scheduleMoreJobsIfFewerThan : ℤ := (jobsPerThread * config.numThreads).tdiv 10

/-- The limit of the query for jobs. -/
def batchLimit : ℤ := config.numThreads * jobsPerThread

end Configuration

/-! ## The main task and the tasks of the jobs -/

/-- Where the main task stands. -/
inductive Phase where
  /-- Before the query for a batch. -/
  | grabbing
  /-- After the query, before the counter is raised. -/
  | fetched (jobs : List Job)
  /-- With jobs to spawn; without any, before the counter is compared with zero. -/
  | spawning (jobs : List Job)
  | receiving
  | writing (result : JobResult)
  /-- After the write, before the counter is lowered. -/
  | written
  | exited
  | panicked (unwritten : List JobResult)

structure Solver where
  activeJobs : ℤ
  phase : Phase
  /-- The jobs whose tasks have not ended. -/
  running : List Job
  /-- The results that were sent and not received. -/
  channel : List JobResult

namespace Solver

def init : Solver := ⟨0, .grabbing, [], []⟩

inductive MainAction where
  | grabJobBatch (jobs : List Job)
  | grabFails
  | raiseActiveJobs
  | spawn
  | check
  | receive
  | writeResult
  | writeFails
  | lowerActiveJobs (inTime : Bool)

inductive Action where
  | main (a : MainAction)
  /-- The task of the job at the place in `running` ends, with what it was answered. -/
  | finish (i : ℕ) (S : Surroundings)

variable (R : Readers) (config : Configuration)

def mainStep (s : Solver) : MainAction → Option Solver
  | .grabJobBatch jobs =>
    match s.phase with
    | .grabbing =>
      if jobs.length ≤ config.batchLimit then some { s with phase := .fetched jobs } else none
    | _ => none
  | .grabFails =>
    match s.phase with
    | .grabbing => some { s with phase := .panicked [] }
    | _ => none
  | .raiseActiveJobs =>
    match s.phase with
    | .fetched jobs =>
      some { s with activeJobs := s.activeJobs + jobs.length, phase := .spawning jobs }
    | _ => none
  | .spawn =>
    match s.phase with
    | .spawning (job :: jobs) =>
      some { s with running := s.running ++ [job], phase := .spawning jobs }
    | _ => none
  | .check =>
    match s.phase with
    | .spawning [] =>
      some { s with phase := if s.activeJobs = 0 then .exited else .receiving }
    | _ => none
  | .receive =>
    match s.phase, s.channel with
    | .receiving, result :: rest => some { s with channel := rest, phase := .writing result }
    | _, _ => none
  | .writeResult =>
    match s.phase with
    | .writing _ => some { s with phase := .written }
    | _ => none
  | .writeFails =>
    match s.phase with
    | .writing result => some { s with phase := .panicked [result] }
    | _ => none
  | .lowerActiveJobs inTime =>
    match s.phase with
    | .written =>
      let newActiveJobs := s.activeJobs - 1
      some { s with
        activeJobs := newActiveJobs
        phase :=
          if newActiveJobs < config.scheduleMoreJobsIfFewerThan ∧ inTime = true then .grabbing
          else .spawning [] }
    | _ => none

/-- The tasks of the jobs end with the main task. -/
def Ended (s : Solver) : Prop :=
  match s.phase with
  | .exited => True
  | .panicked _ => True
  | _ => False

instance (s : Solver) : Decidable s.Ended := by
  unfold Ended
  split <;> infer_instance

/-- Nobody joins the task of a job: after a panic it is gone without a message. -/
def finish (s : Solver) (i : ℕ) (S : Surroundings) : Option Solver :=
  if s.Ended then none
  else
    match s.running[i]? with
    | none => none
    | some job =>
      match R.runSolveJob S job with
      | .ok result =>
        some { s with running := s.running.eraseIdx i, channel := s.channel ++ [result] }
      | .error _ => some { s with running := s.running.eraseIdx i }

def step (s : Solver) : Action → Option Solver
  | .main a => s.mainStep config a
  | .finish i S => s.finish R i S

/-! ## What the counter counts -/

end Solver

namespace Phase

/-- The jobs in the hands of the main task: fetched and not spawned, or received and not
written. -/
@[simp] def held : Phase → ℕ
  | .fetched jobs => jobs.length
  | .spawning jobs => jobs.length
  | .writing _ => 1
  | .panicked unwritten => unwritten.length
  | _ => 0

/-- The jobs of a batch by which the counter is still to be raised. -/
@[simp] def unraised : Phase → ℕ
  | .fetched jobs => jobs.length
  | _ => 0

/-- The result that is written and by which the counter is still to be lowered. -/
@[simp] def unlowered : Phase → ℕ
  | .written => 1
  | _ => 0

end Phase

namespace Solver

/-- The fetched jobs that have not ended or whose result is not written. -/
def openJobs (s : Solver) : ℕ := s.phase.held + s.running.length + s.channel.length

/-- The counter is the number of open jobs, up to the change of it that is under way; the main
task waits for a message only while there is one or some job is running, and it exits without
an open job. -/
structure Counts (s : Solver) : Prop where
  counter : s.activeJobs + s.phase.unraised = s.openJobs + s.phase.unlowered
  waits : s.phase = .receiving → s.running ≠ [] ∨ s.channel ≠ []
  exits : s.phase = .exited → s.openJobs = 0

/-- The invariant: the counter, and what its comparison with zero has shown. -/
structure Tracked (s : Solver) : Prop where
  counter : s.activeJobs + s.phase.unraised = s.openJobs + s.phase.unlowered
  receiving : s.phase = .receiving → s.activeJobs ≠ 0
  exited : s.phase = .exited → s.activeJobs = 0

variable {R : Readers} {config : Configuration} {s s' : Solver}

theorem Tracked.counts (h : s.Tracked) : s.Counts where
  counter := h.counter
  waits hphase := by
    have hcounter := h.counter
    have hne := h.receiving hphase
    by_contra hnone
    push Not at hnone
    simp only [openJobs, hphase, Phase.held, Phase.unraised, Phase.unlowered, hnone] at hcounter
    simp at hcounter
    exact hne hcounter
  exits hphase := by
    have hcounter := h.counter
    have hzero := h.exited hphase
    simp only [hphase, Phase.unraised, Phase.unlowered] at hcounter
    omega

/-- Without a job that runs and without a message, a waiting main task waits forever. -/
theorem step_eq_none_of_waiting (hphase : s.phase = .receiving) (hrunning : s.running = [])
    (hchannel : s.channel = []) (a : Action) : s.step R config a = none := by
  obtain ⟨activeJobs, phase, running, channel⟩ := s
  cases hphase
  cases hrunning
  cases hchannel
  cases a with
  | main a => cases a <;> rfl
  | finish i S => simp [Solver.step, finish]

theorem tracked_init : init.Tracked where
  counter := rfl
  receiving h := by cases h
  exited _ := rfl

theorem Tracked.mainStep {a : MainAction} (h : s.Tracked) (ha : s.mainStep config a = some s') :
    s'.Tracked := by
  obtain ⟨activeJobs, phase, running, channel⟩ := s
  have hcounter := h.counter
  simp only [openJobs] at hcounter
  cases a with
  | grabJobBatch jobs =>
    cases phase <;> simp only [Solver.mainStep, reduceCtorEq] at ha
    split_ifs at ha
    cases ha
    simp only [Phase.held, Phase.unraised, Phase.unlowered] at hcounter
    constructor <;> simp [openJobs]
    omega
  | grabFails =>
    cases phase <;> simp only [Solver.mainStep, reduceCtorEq] at ha
    cases ha
    simp only [Phase.held, Phase.unraised, Phase.unlowered] at hcounter
    constructor <;> simp [openJobs]
    omega
  | raiseActiveJobs =>
    cases phase <;> simp only [Solver.mainStep, reduceCtorEq] at ha
    cases ha
    simp only [Phase.held, Phase.unraised, Phase.unlowered] at hcounter
    constructor <;> simp [openJobs]
    omega
  | spawn =>
    rcases phase with _ | jobs | (_ | ⟨job, jobs⟩) | _ | result | _ | _ | unwritten <;>
      simp only [Solver.mainStep, reduceCtorEq] at ha
    cases ha
    simp only [Phase.held, Phase.unraised, Phase.unlowered, List.length_cons] at hcounter
    constructor <;> simp [openJobs]
    omega
  | check =>
    rcases phase with _ | jobs | (_ | ⟨job, jobs⟩) | _ | result | _ | _ | unwritten <;>
      simp only [Solver.mainStep, reduceCtorEq] at ha
    cases ha
    simp only [Phase.held, Phase.unraised, Phase.unlowered, List.length_nil] at hcounter
    by_cases hzero : activeJobs = 0
    · constructor <;> simp [openJobs, hzero]
      omega
    · constructor <;> simp [openJobs, hzero]
      omega
  | receive =>
    cases phase <;> rcases channel with _ | ⟨result, rest⟩ <;>
      simp only [Solver.mainStep, reduceCtorEq] at ha
    cases ha
    simp only [Phase.held, Phase.unraised, Phase.unlowered, List.length_cons] at hcounter
    constructor <;> simp [openJobs]
    omega
  | writeResult =>
    cases phase <;> simp only [Solver.mainStep, reduceCtorEq] at ha
    cases ha
    simp only [Phase.held, Phase.unraised, Phase.unlowered] at hcounter
    constructor <;> simp [openJobs]
    omega
  | writeFails =>
    cases phase <;> simp only [Solver.mainStep, reduceCtorEq] at ha
    cases ha
    simp only [Phase.held, Phase.unraised, Phase.unlowered] at hcounter
    constructor <;> simp [openJobs]
    omega
  | lowerActiveJobs inTime =>
    cases phase <;> simp only [Solver.mainStep, reduceCtorEq] at ha
    cases ha
    simp only [Phase.held, Phase.unraised, Phase.unlowered] at hcounter
    split_ifs
    · constructor <;> simp [openJobs]
      omega
    · constructor <;> simp [openJobs]
      omega

/-- The task of the job that ends, if any, ends with a result. -/
def Returns (R : Readers) (s : Solver) : Action → Prop
  | .main _ => True
  | .finish i S => ∀ job, s.running[i]? = some job → ∃ result, R.runSolveJob S job = .ok result

theorem finish_cases {i : ℕ} {S : Surroundings} (h : s.finish R i S = some s') :
    ∃ job, s.running[i]? = some job ∧ ¬ s.Ended ∧
      ((∃ result, R.runSolveJob S job = .ok result ∧
          s' = { s with running := s.running.eraseIdx i, channel := s.channel ++ [result] }) ∨
        (∃ message, R.runSolveJob S job = .error message) ∧
          s' = { s with running := s.running.eraseIdx i }) := by
  rw [finish] at h
  split_ifs at h with hended
  cases hjob : s.running[i]? with
  | none => simp [hjob] at h
  | some job =>
    simp only [hjob] at h
    refine ⟨job, rfl, hended, ?_⟩
    cases hrun : R.runSolveJob S job with
    | ok result =>
      simp only [hrun, Option.some.injEq] at h
      exact Or.inl ⟨result, rfl, h.symm⟩
    | error message =>
      simp only [hrun, Option.some.injEq] at h
      exact Or.inr ⟨⟨message, rfl⟩, h.symm⟩

theorem length_eraseIdx_of_getElem? {α : Type} {l : List α} {i : ℕ} {a : α} (h : l[i]? = some a) :
    (l.eraseIdx i).length + 1 = l.length := by
  have hi : i < l.length := (List.getElem?_eq_some_iff.mp h).1
  rw [List.length_eraseIdx_of_lt hi]
  omega

theorem Tracked.step {a : Action} (h : s.Tracked) (hreturns : s.Returns R a)
    (ha : s.step R config a = some s') : s'.Tracked := by
  cases a with
  | main a => exact h.mainStep ha
  | finish i S =>
    obtain ⟨job, hjob, hended, ⟨result, -, rfl⟩ | ⟨⟨message, hmessage⟩, -⟩⟩ := finish_cases ha
    · have hlength := length_eraseIdx_of_getElem? hjob
      have hcounter := h.counter
      simp only [openJobs] at hcounter
      constructor
      · simp only [openJobs, List.length_append, List.length_singleton]
        omega
      · exact h.receiving
      · exact h.exited
    · obtain ⟨result, hresult⟩ := hreturns job hjob
      rw [hmessage] at hresult
      cases hresult

/-- After a panic of a task the counter is one too high. -/
theorem returns_of_counts {a : Action} (h : s.Tracked) (ha : s.step R config a = some s')
    (hcounts : s'.Counts) : s.Returns R a := by
  cases a with
  | main a => trivial
  | finish i S =>
    intro job' hjob'
    obtain ⟨job, hjob, -, ⟨result, hresult, -⟩ | ⟨-, rfl⟩⟩ := finish_cases ha
    · rw [hjob] at hjob'
      cases hjob'
      exact ⟨result, hresult⟩
    · have hlength := length_eraseIdx_of_getElem? hjob
      have hbefore := h.counter
      have hafter := hcounts.counter
      simp only [openJobs] at hbefore hafter
      omega

/-- The counter is right in every state of a run if and only if no task of a job panics in it. -/
theorem counts_iff {actions : List Action}
    (h : (perform (step R config) init actions).isSome) :
    (∀ before s, before <+: actions → perform (step R config) init before = some s → s.Counts) ↔
      ∀ before a s, before ++ [a] <+: actions → perform (step R config) init before = some s →
        s.Returns R a := by
  obtain ⟨s, hs⟩ := Option.isSome_iff_exists.mp h
  exact good_iff_meets (I := Tracked) Tracked.counts tracked_init
    (fun hI hC ha => hI.step hC ha) (fun hI ha hG => returns_of_counts hI ha hG) hs

end Solver

/-! ## Two runs -/

def asciiReaders : Readers where
  chrono := newYears
  unicode := SemverSpecSerialization.asciiDigits
  fromUtf8Lossy _ := ""

def lodashJob : Job where
  updateFromId := 1
  updateToId := 2
  downstreamPackageId := 3
  updatePackageName := "lodash"
  updateFromVersion := release 1
  updateToVersion := release 2
  updateToTime := 0
  downstreamPackageName := "a"

/-- A registry that does not answer. -/
def registryDown : Surroundings where
  registryNow _ := .error "stoping after 10 retries"
  npmInstall _ _ := .ok (.failed [] [])

/-- A registry that answers without versions. -/
def registryEmpty : Surroundings where
  registryNow _ := .ok (.object [])
  npmInstall _ _ := .ok (.failed [] [])

theorem runSolveJob_registryEmpty (job : Job) : asciiReaders.runSolveJob registryEmpty job =
    .ok (asciiReaders.jobResult job (Readers.gone .downstreamMissingPackage [])) := rfl

namespace Solver

def oneJob (S : Surroundings) : List Action :=
  [.main (.grabJobBatch [lodashJob]), .main .raiseActiveJobs, .main .spawn, .finish 0 S,
    .main .check]

theorem counts_emptyRegistry :
    (perform (step asciiReaders ⟨2⟩) init (oneJob registryEmpty)).isSome ∧
      ∀ before s, before <+: oneJob registryEmpty →
        perform (step asciiReaders ⟨2⟩) init before = some s → s.Counts := by
  have hrun : (perform (step asciiReaders ⟨2⟩) init (oneJob registryEmpty)).isSome := by
    decide +kernel
  refine ⟨hrun, (counts_iff hrun).mpr ?_⟩
  intro before a s hprefix _
  have hmem : a ∈ oneJob registryEmpty :=
    hprefix.subset (List.mem_append_right before (List.mem_singleton_self a))
  simp only [oneJob, List.mem_cons, List.not_mem_nil, or_false] at hmem
  rcases hmem with rfl | rfl | rfl | rfl | rfl
  · trivial
  · trivial
  · trivial
  · intro job _
    exact ⟨_, runSolveJob_registryEmpty job⟩
  · trivial

/-- The registry does not answer, the task of the job panics, and the main task waits forever. -/
theorem not_counts_registryDown : ¬ ∀ (before : List Action) (s : Solver),
    before <+: oneJob registryDown →
      perform (step asciiReaders ⟨2⟩) init before = some s → s.Counts := by
  intro h
  have hrun : perform (step asciiReaders ⟨2⟩) init (oneJob registryDown) =
      some ⟨1, .receiving, [], []⟩ := rfl
  have hcounts := h _ _ List.prefix_rfl hrun
  rcases hcounts.waits rfl with hrunning | hchannel
  · exact hrunning rfl
  · exact hchannel rfl

end Solver

end NpmFollower.HistoricSolverJob
