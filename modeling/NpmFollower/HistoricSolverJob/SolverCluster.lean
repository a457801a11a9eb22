import NpmFollower.HistoricSolverJob.JobQueue

/-! # The nodes and their tables

Any number of nodes take jobs from the tables and write results to them, each in
its own steps. Nodes are killed, their tasks panic, and the scripts are run in
between. No job is in two hands, and no result is refused.
-/

namespace NpmFollower.HistoricSolverJob

open PostgresDb ClaimTable

/-- A process of the solver; `inserted` stands between the two statements that write a result. -/
structure SolverNode where
  nodeName : String
  config : Configuration
  solver : Solver
  inserted : Bool

structure SolverCluster where
  tables : JobTables
  nodes : ℕ → Option SolverNode

namespace SolverCluster

def empty : SolverCluster := ⟨.empty, fun _ => none⟩

inductive Action where
  | fillJobInput (job : Job)
  | jobInputGc
  | jobInputKillZombies
  | requeueMissingResults
  | requeueFromMissing
  | resetJobs
  | start (i : ℕ) (nodeName : String) (config : Configuration)
  | kill (i : ℕ)
  | getJobs (i : ℕ) (locked : List JobKey)
  | insertResult (i : ℕ)
  | markDone (i : ℕ)
  /-- A step of the main task without the tables, or a statement that fails. -/
  | main (i : ℕ) (a : Solver.MainAction)
  /-- The end of the task of a job. -/
  | finish (i place : ℕ) (S : Surroundings)

def setNode (s : SolverCluster) (i : ℕ) (node : Option SolverNode) : SolverCluster :=
  { s with nodes := Function.update s.nodes i node }

section Step

variable (R : Readers)

/-- What the action of a node gives: the tables and the node. -/
def nodeStep (tables : JobTables) (node : SolverNode) : Action → Option (JobTables × SolverNode)
  | .getJobs _ locked => do
    match node.solver.phase with
    | .grabbing =>
      let (jobs, tables) ← tables.handleGetJobs node.config.batchLimit node.nodeName locked
      let solver ← node.solver.mainStep node.config (.grabJobBatch jobs)
      return (tables, { node with solver })
    | _ => none
  | .insertResult _ =>
    match node.solver.phase, node.inserted with
    | .writing result, false => do
      match tables.insertResult result with
      | some tables => return (tables, { node with inserted := true })
      | none =>
        let solver ← node.solver.mainStep node.config .writeFails
        return (tables, { node with solver })
    | _, _ => none
  | .markDone _ =>
    match node.solver.phase, node.inserted with
    | .writing result, true => do
      let solver ← node.solver.mainStep node.config .writeResult
      return (tables.markDone result, { node with solver, inserted := false })
    | _, _ => none
  | .main _ (.grabJobBatch _) => none
  | .main _ .writeResult => none
  | .main _ a => do
    let solver ← node.solver.mainStep node.config a
    return (tables, { node with solver, inserted := false })
  | .finish _ place S => do
    let solver ← node.solver.finish R place S
    return (tables, { node with solver })
  | _ => none

def Action.node : Action → Option ℕ
  | .getJobs i _ => some i
  | .insertResult i => some i
  | .markDone i => some i
  | .main i _ => some i
  | .finish i _ _ => some i
  | _ => none

def step (s : SolverCluster) : Action → Option SolverCluster
  | .fillJobInput job => do
    let tables ← s.tables.fillJobInput job
    return { s with tables }
  | .jobInputGc => some { s with tables := s.tables.jobInputGc }
  | .jobInputKillZombies => some { s with tables := s.tables.jobInputKillZombies }
  | .requeueMissingResults => some { s with tables := s.tables.requeueMissingResults }
  | .requeueFromMissing => some { s with tables := s.tables.requeueFromMissing }
  | .resetJobs => some { s with tables := s.tables.resetJobs }
  | .start i nodeName config =>
    match s.nodes i with
    | none => some (s.setNode i (some ⟨nodeName, config, .init, false⟩))
    | some _ => none
  | .kill i => some (s.setNode i none)
  | a => do
    let i ← a.node
    let node ← s.nodes i
    let (tables, node) ← nodeStep R s.tables node a
    return { s.setNode i (some node) with tables }

end Step

/-- All nodes that are there have come to their end. -/
def Stopped (s : SolverCluster) : Prop := ∀ i node, s.nodes i = some node → node.solver.Ended

/-- No node has the name of the test, and jobs are set back when no node is at work. -/
def Meets (s : SolverCluster) : Action → Prop
  | .jobInputKillZombies => s.Stopped
  | .resetJobs => s.Stopped
  | .start _ nodeName _ => nodeName ≠ "TEST"
  | _ => True

end SolverCluster

/-! ## What a node holds -/

namespace Phase

/-- The jobs of a batch that have no task yet. -/
@[simp] def jobs : Phase → List Job
  | .fetched jobs => jobs
  | .spawning jobs => jobs
  | _ => []

@[simp] def results : Phase → List JobResult
  | .writing result => [result]
  | _ => []

def keys (phase : Phase) : List JobKey :=
  phase.jobs.map Job.key ++ phase.results.map JobResult.key

end Phase

namespace Solver

/-- The keys of the jobs with a task, or with a result in the channel. -/
def restKeys (s : Solver) : List JobKey :=
  s.running.map Job.key ++ s.channel.map JobResult.key

/-- The keys of all jobs in the hands of a node. -/
def heldKeys (s : Solver) : List JobKey := if s.Ended then [] else s.phase.keys ++ s.restKeys

/-- A result that the solver gave for one of the jobs. -/
def Reported (R : Readers) (jobs : List Job) (result : JobResult) : Prop :=
  ∃ job ∈ jobs, ∃ S, R.runSolveJob S job = .ok result

/-- The jobs of a node are among the given ones, and its results were reported for them. -/
structure Known (R : Readers) (given : List Job) (s : Solver) : Prop where
  jobs : ∀ job ∈ s.phase.jobs ++ s.running, job ∈ given
  results : ∀ result ∈ s.phase.results ++ s.channel, Reported R given result

variable {R : Readers} {config : Configuration} {given given' : List Job} {s s' : Solver}

theorem key_of_runSolveJob {S : Surroundings} {job : Job} {result : JobResult}
    (h : R.runSolveJob S job = .ok result) : result.key = job.key := by
  obtain ⟨run, -, h⟩ := Folds.ok_of_bind h
  obtain rfl := Except.ok.inj h
  rfl

theorem Reported.mono (hgiven : given ⊆ given') {result : JobResult}
    (h : Reported R given result) : Reported R given' result := by
  obtain ⟨job, hjob, S, hS⟩ := h
  exact ⟨job, hgiven hjob, S, hS⟩

theorem Known.mono (hgiven : given ⊆ given') (h : s.Known R given) : s.Known R given' :=
  ⟨fun job hjob => hgiven (h.jobs job hjob), fun r hr => (h.results r hr).mono hgiven⟩

theorem known_init : init.Known R given :=
  ⟨fun _ hjob => absurd hjob List.not_mem_nil, fun _ hr => absurd hr List.not_mem_nil⟩

theorem heldKeys_of_ended (h : s.Ended) : s.heldKeys = [] := if_pos h

theorem heldKeys_of_not_ended (h : ¬ s.Ended) : s.heldKeys = s.phase.keys ++ s.restKeys :=
  if_neg h

/-- The steps of the main task that bring no jobs. -/
def Local : MainAction → Prop
  | .grabJobBatch _ => False
  | _ => True

/-- The main task takes no key from elsewhere, and it loses its keys only at its end. -/
theorem heldKeys_local {a : MainAction} (h : s.mainStep config a = some s') (ha : Local a) :
    s'.heldKeys.Subperm s.heldKeys ∧ (s.Known R given → s'.Known R given) := by
  obtain ⟨activeJobs, phase, running, channel⟩ := s
  cases a with
  | grabJobBatch jobs => exact ha.elim
  | grabFails =>
    cases phase <;> simp only [mainStep, reduceCtorEq] at h
    cases h
    exact ⟨List.nil_subperm, fun hk => ⟨hk.jobs, hk.results⟩⟩
  | raiseActiveJobs =>
    cases phase <;> simp only [mainStep, reduceCtorEq] at h
    cases h
    exact ⟨List.Subperm.refl _, fun hk => ⟨hk.jobs, hk.results⟩⟩
  | spawn =>
    rcases phase with _ | jobs | (_ | ⟨job, jobs⟩) | _ | result | _ | _ | unwritten <;>
      simp only [mainStep, reduceCtorEq] at h
    cases h
    have hperm : (jobs ++ (running ++ [job])).Perm (job :: jobs ++ running) := by
      rw [← List.append_assoc]
      exact List.perm_append_singleton job (jobs ++ running)
    refine ⟨List.Perm.subperm ?_,
      fun hk => ⟨fun job hjob => hk.jobs job (hperm.mem_iff.mp hjob), hk.results⟩⟩
    have hkeys := (hperm.map Job.key).append_right (channel.map JobResult.key)
    rw [List.map_append, List.map_append, List.append_assoc, List.append_assoc] at hkeys
    simpa [heldKeys, Ended, Phase.keys, restKeys] using hkeys
  | check =>
    rcases phase with _ | jobs | (_ | ⟨job, jobs⟩) | _ | result | _ | _ | unwritten <;>
      simp only [mainStep, reduceCtorEq] at h
    cases h
    split_ifs
    · exact ⟨List.nil_subperm, fun hk => ⟨hk.jobs, hk.results⟩⟩
    · exact ⟨List.Subperm.refl _, fun hk => ⟨hk.jobs, hk.results⟩⟩
  | receive =>
    cases phase <;> rcases channel with _ | ⟨result, rest⟩ <;>
      simp only [mainStep, reduceCtorEq] at h
    cases h
    have hperm : (result.key :: (running.map Job.key ++ rest.map JobResult.key)).Perm
        (running.map Job.key ++ result.key :: rest.map JobResult.key) := List.perm_middle.symm
    exact ⟨hperm.subperm, fun hk => ⟨hk.jobs, hk.results⟩⟩
  | writeResult =>
    cases phase <;> simp only [mainStep, reduceCtorEq] at h
    cases h
    refine ⟨(List.sublist_cons_self _ _).subperm, fun hk => ⟨hk.jobs, fun r hr => ?_⟩⟩
    exact hk.results r (List.mem_cons_of_mem _ hr)
  | writeFails =>
    cases phase <;> simp only [mainStep, reduceCtorEq] at h
    cases h
    refine ⟨List.nil_subperm, fun hk => ⟨hk.jobs, fun r hr => ?_⟩⟩
    exact hk.results r (List.mem_cons_of_mem _ hr)
  | lowerActiveJobs inTime =>
    cases phase <;> simp only [mainStep, reduceCtorEq] at h
    cases h
    split_ifs
    · exact ⟨List.Subperm.refl _, fun hk => ⟨hk.jobs, hk.results⟩⟩
    · exact ⟨List.Subperm.refl _, fun hk => ⟨hk.jobs, hk.results⟩⟩

/-- A main task that writes a result goes on without it. -/
theorem heldKeys_of_writing {a : MainAction} {result : JobResult} (hphase : s.phase = .writing result)
    (h : s.mainStep config a = some s') : s'.heldKeys.Subperm s.restKeys := by
  obtain ⟨activeJobs, phase, running, channel⟩ := s
  cases hphase
  cases a with
  | writeResult =>
    cases h
    exact List.Subperm.refl _
  | writeFails =>
    cases h
    exact List.nil_subperm
  | grabJobBatch jobs => cases h
  | grabFails => cases h
  | raiseActiveJobs => cases h
  | spawn => cases h
  | check => cases h
  | receive => cases h
  | lowerActiveJobs inTime => cases h

theorem perm_eraseIdx {α : Type} {l : List α} {i : ℕ} {a : α} (h : l[i]? = some a) :
    (a :: l.eraseIdx i).Perm l := by
  obtain ⟨hi, rfl⟩ := List.getElem?_eq_some_iff.mp h
  exact List.getElem_cons_eraseIdx_perm hi

/-- A task that ends turns its job into its result, or takes the job with it. -/
theorem restKeys_finish {i : ℕ} {S : Surroundings} (h : s.finish R i S = some s') :
    s'.phase = s.phase ∧ s'.restKeys.Subperm s.restKeys ∧ (s.Known R given → s'.Known R given) := by
  obtain ⟨job, hjob, -, hcases⟩ := finish_cases h
  have hperm := perm_eraseIdx hjob
  have hkeys : (job.key :: (s.running.eraseIdx i).map Job.key ++ s.channel.map JobResult.key).Perm
      s.restKeys := (hperm.map Job.key).append_right _
  have hkept : s.phase.jobs ++ s.running.eraseIdx i ⊆ s.phase.jobs ++ s.running :=
    List.append_subset.mpr ⟨List.subset_append_left _ _, fun j hj =>
      List.mem_append_right _ (hperm.subset (List.mem_cons_of_mem _ hj))⟩
  rcases hcases with ⟨result, hresult, rfl⟩ | ⟨-, rfl⟩
  · refine ⟨rfl, (List.Perm.trans ?_ hkeys).subperm,
      fun hk => ⟨fun j hj => hk.jobs j (hkept hj), fun r hr => ?_⟩⟩
    · rw [restKeys, List.map_append, List.map_singleton, key_of_runSolveJob hresult,
        ← List.append_assoc]
      exact List.perm_append_singleton _ _
    · rw [← List.append_assoc] at hr
      rcases List.mem_append.mp hr with hr | hr
      · exact hk.results r hr
      · rw [List.mem_singleton.mp hr]
        exact ⟨job, hk.jobs job (List.mem_append_right _ (List.mem_of_getElem? hjob)), S, hresult⟩
  · refine ⟨rfl, ((List.sublist_cons_self _ _).subperm).trans hkeys.subperm,
      fun hk => ⟨fun j hj => hk.jobs j (hkept hj), hk.results⟩⟩

theorem heldKeys_finish {i : ℕ} {S : Surroundings} (h : s.finish R i S = some s') :
    s'.heldKeys.Subperm s.heldKeys := by
  obtain ⟨hphase, hrest, -⟩ := @restKeys_finish _ [] _ _ _ _ h
  obtain ⟨-, -, hended, -⟩ := finish_cases h
  have hended' : ¬ s'.Ended := by
    rwa [Ended, hphase]
  rw [heldKeys_of_not_ended hended, heldKeys_of_not_ended hended', hphase]
  exact (List.subperm_append_left _).mpr hrest

end Solver

/-! ## One step of a node -/

namespace SolverNode

/-- After the first statement of a write the result has left the node's hands. -/
def heldKeys (node : SolverNode) : List JobKey :=
  if node.inserted then node.solver.restKeys else node.solver.heldKeys

/-- What is right about a node beside its keys. -/
structure Fine (R : Readers) (t : JobTables) (node : SolverNode) : Prop where
  name : node.nodeName ≠ "TEST"
  known : node.solver.Known R (t.inputs.map (·.job))
  inserted : node.inserted = true →
    ∃ result, node.solver.phase = .writing result ∧ result.key ∈ t.resultKeys

variable {R : Readers} {t t' : JobTables} {node node' : SolverNode}

theorem Fine.tables (h : node.Fine R t) (hjobs : t.inputs.map (·.job) ⊆ t'.inputs.map (·.job))
    (hresults : t.resultKeys ⊆ t'.resultKeys) : node.Fine R t' := by
  refine ⟨h.name, h.known.mono hjobs, fun hinserted => ?_⟩
  obtain ⟨result, hphase, hmem⟩ := h.inserted hinserted
  exact ⟨result, hphase, hresults hmem⟩

theorem Fine.not_inserted_of_ended (h : node.Fine R t) (hended : node.solver.Ended) :
    node.inserted = false := by
  by_contra hinserted
  rw [Bool.not_eq_false] at hinserted
  obtain ⟨result, hphase, -⟩ := h.inserted hinserted
  rw [Solver.Ended, hphase] at hended
  exact hended

theorem Fine.heldKeys_of_ended (h : node.Fine R t) (hended : node.solver.Ended) :
    node.heldKeys = [] := by
  rw [heldKeys, h.not_inserted_of_ended hended, if_neg Bool.false_ne_true,
    Solver.heldKeys_of_ended hended]

/-- What a step of a node can be. -/
inductive Effect (R : Readers) (t : JobTables) (node : SolverNode) :
    JobTables → SolverNode → Prop where
  | keep {node' : SolverNode} (hheld : node'.heldKeys.Subperm node.heldKeys)
      (hfine : node'.Fine R t) : Effect R t node t node'
  | grab {t' : JobTables} {node' : SolverNode} {locked : List JobKey} {jobs : List Job}
      (hjobs : t.handleGetJobs node.config.batchLimit node.nodeName locked = some (jobs, t'))
      (hheld : node'.heldKeys = jobs.map Job.key ++ node.heldKeys)
      (hfine : node'.Fine R t') : Effect R t node t' node'
  | insert {node' : SolverNode} {result : JobResult} (hfresh : result.key ∉ t.resultKeys)
      (hheld : node.heldKeys = result.key :: node'.heldKeys)
      (hreported : Solver.Reported R (t.inputs.map (·.job)) result)
      (hfine : node'.Fine R { t with results := t.results ++ [result] }) :
      Effect R t node { t with results := t.results ++ [result] } node'
  | mark {node' : SolverNode} {result : JobResult} (hmem : result.key ∈ t.resultKeys)
      (hheld : node'.heldKeys = node.heldKeys) (hfine : node'.Fine R (t.markDone result)) :
      Effect R t node (t.markDone result) node'

end SolverNode

namespace SolverCluster

variable {R : Readers} {t t' : JobTables} {node node' : SolverNode}

open SolverNode in
theorem effect_of_local {a : Solver.MainAction} {solver : Solver} (hfine : node.Fine R t)
    (h : node.solver.mainStep node.config a = some solver) (ha : Solver.Local a) :
    Effect R t node t { node with solver, inserted := false } := by
  obtain ⟨hheld, hknown⟩ := Solver.heldKeys_local h ha
  refine .keep ?_ ⟨hfine.name, hknown hfine.known, fun hfalse => absurd hfalse Bool.false_ne_true⟩
  have hnew : SolverNode.heldKeys { node with solver, inserted := false } = solver.heldKeys := rfl
  rw [hnew, SolverNode.heldKeys]
  split_ifs with hinserted
  · obtain ⟨result, hphase, -⟩ := hfine.inserted hinserted
    exact Solver.heldKeys_of_writing hphase h
  · exact hheld

open SolverNode in
theorem effect_of_grab {locked : List JobKey} {jobs : List Job} {solver : Solver}
    (ht : (t.inputs.map JobInput.key).Nodup) (hfine : node.Fine R t)
    (hphase : node.solver.phase = .grabbing)
    (hjobs : t.handleGetJobs node.config.batchLimit node.nodeName locked = some (jobs, t'))
    (h : node.solver.mainStep node.config (.grabJobBatch jobs) = some solver) :
    Effect R t node t' { node with solver } := by
  obtain ⟨-, hknown, -, -, -, hsame, hresults⟩ := JobTables.handleGetJobs_eq ht hfine.name hjobs
  have hnot : node.inserted = false := by
    by_contra hinserted
    obtain ⟨result, hwriting, -⟩ := hfine.inserted (Bool.eq_true_of_not_eq_false hinserted)
    cases hphase.symm.trans hwriting
  obtain ⟨nodeName, config, ⟨activeJobs, phase, running, channel⟩, inserted⟩ := node
  cases hphase
  rw [Solver.mainStep, Option.ite_none_right_eq_some] at h
  obtain ⟨-, h⟩ := h
  cases h
  refine .grab hjobs ?_ ⟨hfine.name, ⟨fun job hjob => ?_, fun r hr => ?_⟩, fun hinserted => ?_⟩
  · rw [heldKeys, heldKeys, hnot, if_neg Bool.false_ne_true, if_neg Bool.false_ne_true,
      Solver.heldKeys_of_not_ended id, Solver.heldKeys_of_not_ended id]
    simp [Phase.keys, Solver.restKeys]
  · rw [hsame]
    rcases List.mem_append.mp hjob with hjob | hjob
    · exact hknown job hjob
    · exact hfine.known.jobs job hjob
  · rw [hsame]
    exact hfine.known.results r hr
  · rw [hnot] at hinserted
    cases hinserted

open SolverNode in
theorem effect_of_insert {result : JobResult} (hfine : node.Fine R t)
    (hphase : node.solver.phase = .writing result) (hinserted : node.inserted = false)
    (hfresh : result.key ∉ t.resultKeys) :
    Effect R t node { t with results := t.results ++ [result] } { node with inserted := true } := by
  refine .insert hfresh ?_ (hfine.known.results result ?_) ⟨hfine.name, hfine.known, fun _ => ?_⟩
  · have hnot : ¬ node.solver.Ended := by
      rw [Solver.Ended, hphase]
      exact id
    rw [heldKeys, hinserted, if_neg Bool.false_ne_true, Solver.heldKeys_of_not_ended hnot, hphase]
    rfl
  · rw [hphase]
    exact List.mem_append_left _ (List.mem_singleton_self _)
  · refine ⟨result, hphase, ?_⟩
    rw [JobTables.resultKeys, List.map_append]
    exact List.mem_append_right _ (List.mem_singleton_self _)

open SolverNode in
theorem effect_of_mark {result : JobResult} {solver : Solver} (hfine : node.Fine R t)
    (hphase : node.solver.phase = .writing result) (hinserted : node.inserted = true)
    (h : node.solver.mainStep node.config .writeResult = some solver) :
    Effect R t node (t.markDone result) { node with solver, inserted := false } := by
  obtain ⟨written, hwriting, hmem⟩ := hfine.inserted hinserted
  cases hphase.symm.trans hwriting
  have hknown := (Solver.heldKeys_local h trivial).2 hfine.known
  have hjobs : (t.markDone result).inputs.map (·.job) = t.inputs.map (·.job) :=
    JobTables.jobs_setState
  refine .mark hmem ?_ ⟨hfine.name, ?_, fun hfalse => absurd hfalse Bool.false_ne_true⟩
  · obtain ⟨nodeName, config, ⟨activeJobs, phase, running, channel⟩, inserted⟩ := node
    cases hphase
    cases hinserted
    cases h
    rfl
  · rw [hjobs]
    exact hknown

open SolverNode in
theorem nodeStep_effect {a : Action} (ht : (t.inputs.map JobInput.key).Nodup)
    (hfine : node.Fine R t) (h : nodeStep R t node a = some (t', node')) :
    Effect R t node t' node' := by
  cases a with
  | getJobs i locked =>
    rw [nodeStep] at h
    cases hphase : node.solver.phase with
    | grabbing =>
      simp only [hphase] at h
      obtain ⟨⟨jobs, tables⟩, hjobs, h⟩ := Option.bind_eq_some_iff.mp h
      obtain ⟨solver, hsolver, h⟩ := Option.bind_eq_some_iff.mp h
      cases h
      exact effect_of_grab ht hfine hphase hjobs hsolver
    | _ =>
      simp only [hphase] at h
      cases h
  | insertResult i =>
    rw [nodeStep] at h
    split at h
    · next result hphase hinserted =>
      rw [JobTables.insertResult] at h
      by_cases hfresh : result.key ∈ t.resultKeys
      · simp only [if_pos hfresh] at h
        obtain ⟨solver, hsolver, h⟩ := Option.bind_eq_some_iff.mp h
        cases h
        have hlocal := effect_of_local hfine hsolver trivial
        rwa [← hinserted] at hlocal
      · simp only [if_neg hfresh] at h
        cases h
        exact effect_of_insert hfine hphase hinserted hfresh
    · cases h
  | markDone i =>
    rw [nodeStep] at h
    split at h
    · next result hphase hinserted =>
      obtain ⟨solver, hsolver, h⟩ := Option.bind_eq_some_iff.mp h
      cases h
      exact effect_of_mark hfine hphase hinserted hsolver
    · cases h
  | main i a =>
    cases a with
    | grabJobBatch jobs => cases h
    | writeResult => cases h
    | _ =>
      obtain ⟨solver, hsolver, h⟩ := Option.bind_eq_some_iff.mp h
      cases h
      exact effect_of_local hfine hsolver trivial
  | finish i place S =>
    obtain ⟨solver, hsolver, h⟩ := Option.bind_eq_some_iff.mp h
    cases h
    obtain ⟨hphase, hrest, hknown⟩ := Solver.restKeys_finish hsolver
    refine .keep ?_ ⟨hfine.name, hknown hfine.known, fun hinserted => ?_⟩
    · rw [SolverNode.heldKeys, SolverNode.heldKeys]
      split_ifs
      · exact hrest
      · exact Solver.heldKeys_finish hsolver
    · rw [hphase]
      exact hfine.inserted hinserted
  | _ => cases h

/-! ## The cluster refines the claims of work -/

section Refines

variable {s s' : SolverCluster} {i : ℕ}

def claims (s : SolverCluster) : Claims ℕ JobKey where
  status := s.tables.status
  finished := {k | k ∈ s.tables.resultKeys}
  held i := (s.nodes i).elim [] SolverNode.heldKeys

/-- The invariant. -/
structure Safe (R : Readers) (s : SolverCluster) : Prop where
  inputs : (s.tables.inputs.map JobInput.key).Nodup
  results : s.tables.resultKeys.Nodup
  claims : ClaimTable.Sound s.claims
  reported : ∀ result ∈ s.tables.results,
    Solver.Reported R (s.tables.inputs.map (·.job)) result
  fine : ∀ i node, s.nodes i = some node → node.Fine R s.tables

theorem claims_setNode (i : ℕ) (node : Option SolverNode) (t : JobTables) :
    claims ⟨t, Function.update s.nodes i node⟩ =
      ⟨t.status, {k | k ∈ t.resultKeys},
        Function.update s.claims.held i (node.elim [] SolverNode.heldKeys)⟩ := by
  have hheld : ∀ j, (Function.update s.nodes i node j).elim [] SolverNode.heldKeys =
      Function.update s.claims.held i (node.elim [] SolverNode.heldKeys) j := by
    intro j
    by_cases hj : j = i
    · subst hj
      rw [Function.update_self, Function.update_self]
    · rw [Function.update_of_ne hj, Function.update_of_ne hj]
      rfl
  rw [claims]
  congr 1
  exact funext hheld

theorem claims_tables (t : JobTables) :
    claims ⟨t, s.nodes⟩ = ⟨t.status, {k | k ∈ t.resultKeys}, s.claims.held⟩ := rfl

theorem held_eq (hnode : s.nodes i = some node) : s.claims.held i = node.heldKeys := by
  have hheld : s.claims.held i = (s.nodes i).elim [] SolverNode.heldKeys := rfl
  rw [hheld, hnode]
  rfl

open SolverNode in
theorem refines_effect (hs : s.Safe R) (hnode : s.nodes i = some node)
    (h : Effect R s.tables node t' node') :
    Relation.ReflTransGen Step s.claims
      (claims ⟨t', Function.update s.nodes i (some node')⟩) := by
  have hheldNode := held_eq hnode
  rw [claims_setNode]
  cases h with
  | keep hheld hfine => exact .single (.drop i _ (hheldNode ▸ hheld))
  | grab hjobs hheld hfine =>
    obtain ⟨-, -, hnodup, htodo, hstatus, -, hresults⟩ :=
      JobTables.handleGetJobs_eq hs.inputs (hs.fine i node hnode).name hjobs
    have hstep := Step.claim (c := s.claims) i _ _
      (fun _ _ => decide_eq_true_iff) hnodup htodo
    rw [hheldNode, ← hheld] at hstep
    rw [hstatus, JobTables.resultKeys, hresults]
    exact .single hstep
  | @insert node' result hfresh hheld hreported hfine =>
    have hstep := Step.finish (c := s.claims) i result.key node'.heldKeys
      (by rw [hheldNode, hheld])
    have hfinished : {k | k ∈ ({ s.tables with
        results := s.tables.results ++ [result] } : JobTables).resultKeys} =
        insert result.key s.claims.finished := by
      ext k
      simp [JobTables.resultKeys, claims, or_comm]
    rw [hfinished]
    exact .single hstep
  | @mark node' result hmem hheld hfine =>
    have hstatus : (s.tables.markDone result).status =
        restate s.tables.status (fun k _ => decide (k = result.key)) .done :=
      JobTables.status_setState fun _ => rfl
    have hmark := Step.mark (c := s.claims) (fun k _ => decide (k = result.key))
      fun k _ hk => of_decide_eq_true hk ▸ hmem
    rw [hstatus]
    have hsame : node'.heldKeys.Subperm (s.claims.held i) := by
      rw [hheldNode, hheld]
    exact .tail (.single hmark) (.drop i _ hsame)

/-- No result has the category that `requeue_from_missing` looks for. -/
theorem resultCategory_ne {given : List Job} {result : JobResult}
    (h : Solver.Reported R given result) : result.resultCategory ≠ "FromMissing" := by
  obtain ⟨job, -, S, hS⟩ := h
  obtain ⟨run, -, hS⟩ := Folds.ok_of_bind hS
  obtain rfl := Except.ok.inj hS
  obtain ⟨result, history⟩ := run
  cases result with
  | ok u =>
    show ResultCategory.ok.intoStr ≠ "FromMissing"
    decide
  | error failed =>
    show (ResultCategory.error failed.err).intoStr ≠ "FromMissing"
    cases failed.err <;> decide

theorem requeueFromMissing_eq
    (h : ∀ result ∈ t.results, result.resultCategory ≠ "FromMissing") :
    t.requeueFromMissing = t := by
  have hnone : t.results.filter (fun result => result.resultCategory = "FromMissing") = [] :=
    List.filter_eq_nil_iff.mpr fun result hresult => by simpa using h result hresult
  have hall : t.results.filter (fun result => result.resultCategory ≠ "FromMissing") = t.results :=
    List.filter_eq_self.mpr fun result hresult => by simpa using h result hresult
  simp only [JobTables.requeueFromMissing, JobTables.setState, hnone, hall]
  simp

theorem status_eq_iff {a b : JobState} : a.status = b.status ↔ a = b := by
  cases a <;> cases b <;> decide

/-- What a script does to the rows it looks for, by their states and the stored results. -/
theorem status_script {old new : JobState} {q : JobKey → Prop} [DecidablePred q]
    {workNode : Option String → Option String} :
    (t.setState (fun row => row.jobState = old ∧ q row.key) new workNode).status =
      restate t.status (fun k s => decide (s = old.status ∧ q k)) new.status := by
  refine JobTables.status_setState fun row => ?_
  rw [decide_eq_decide, status_eq_iff]

open SolverNode in
/-- A step of a node is one of its effects. -/
theorem effect_of_step {a : Action} (hs : s.Safe R) (ha : a.node.isSome) (h : step R s a = some s') :
    ∃ i node t' node', s.nodes i = some node ∧ Effect R s.tables node t' node' ∧
      s' = ⟨t', Function.update s.nodes i (some node')⟩ := by
  have hbind : (do
      let i ← a.node
      let node ← s.nodes i
      let (tables, node) ← nodeStep R s.tables node a
      return { s.setNode i (some node) with tables } : Option SolverCluster) = some s' := by
    cases a with
    | getJobs i locked => exact h
    | insertResult i => exact h
    | markDone i => exact h
    | main i a => exact h
    | finish i place S => exact h
    | _ => cases ha
  obtain ⟨i, -, hbind⟩ := Option.bind_eq_some_iff.mp hbind
  obtain ⟨node, hnode, hbind⟩ := Option.bind_eq_some_iff.mp hbind
  obtain ⟨⟨t', node'⟩, hstep, hbind⟩ := Option.bind_eq_some_iff.mp hbind
  cases hbind
  exact ⟨i, node, t', node', hnode, nodeStep_effect hs.inputs (hs.fine i node hnode) hstep, rfl⟩

theorem refines_node {a : Action} (hs : s.Safe R) (ha : a.node.isSome) (h : step R s a = some s') :
    Relation.ReflTransGen Step s.claims s'.claims := by
  obtain ⟨i, node, t', node', hnode, heffect, rfl⟩ := effect_of_step hs ha h
  exact refines_effect hs hnode heffect

theorem refines {a : Action} (hs : s.Safe R) (hmeets : s.Meets a) (h : step R s a = some s') :
    Relation.ReflTransGen Step s.claims s'.claims := by
  have hidle : s.Stopped → ∀ i, s.claims.held i = [] := by
    intro hstopped i
    cases hnode : s.nodes i with
    | none =>
      have hheld : s.claims.held i = (s.nodes i).elim [] SolverNode.heldKeys := rfl
      rw [hheld, hnode]
      rfl
    | some node =>
      rw [held_eq hnode]
      exact (hs.fine i node hnode).heldKeys_of_ended (hstopped i node hnode)
  cases a with
  | fillJobInput job =>
    obtain ⟨tables, htables, h⟩ := Option.bind_eq_some_iff.mp h
    cases h
    obtain ⟨hnone, hstatus, -, hresults⟩ := JobTables.status_fillJobInput htables
    rw [claims_tables tables, JobTables.resultKeys, hstatus, hresults]
    exact .single (.add job.key hnone)
  | jobInputGc =>
    cases h
    rw [claims_tables s.tables.jobInputGc, JobTables.jobInputGc, status_script]
    refine .single (.mark _ fun k st hk => ?_)
    exact (of_decide_eq_true hk).2
  | jobInputKillZombies =>
    cases h
    rw [claims_tables s.tables.jobInputKillZombies, JobTables.jobInputKillZombies,
      status_script (q := fun k => k ∉ s.tables.resultKeys)]
    refine .single (.revive _ (fun k st hk => ?_) (Or.inl (hidle hmeets)))
    exact (of_decide_eq_true hk).2
  | requeueMissingResults =>
    cases h
    rw [claims_tables s.tables.requeueMissingResults, JobTables.requeueMissingResults,
      status_script (q := fun k => k ∉ s.tables.resultKeys)]
    refine .single (.revive _ (fun k st hk => ?_) (Or.inr fun k => ?_))
    · exact (of_decide_eq_true hk).2
    · simp [JobState.status]
  | requeueFromMissing =>
    cases h
    rw [requeueFromMissing_eq fun result hresult => resultCategory_ne (hs.reported result hresult)]
  | resetJobs =>
    cases h
    have hstatus : s.tables.resetJobs.status =
        restate s.tables.status (fun _ _ => true) .todo := by
      have hset : (s.tables.setState (fun row => row.jobState ≠ .none) .none fun _ => none).status =
          restate s.tables.status (fun _ st => decide (st ≠ .todo)) JobState.none.status := by
        refine JobTables.status_setState fun row => ?_
        rw [decide_eq_decide]
        exact status_eq_iff.not.symm
      refine Eq.trans hset ?_
      funext k
      rw [restate, restate]
      refine Option.map_congr fun st _ => ?_
      by_cases hst : st = .todo <;> simp [hst, JobState.status]
    rw [claims_tables s.tables.resetJobs, hstatus]
    have hfinished : {k | k ∈ s.tables.resetJobs.resultKeys} = ∅ :=
      Set.eq_empty_of_forall_notMem fun k hk => List.not_mem_nil hk
    rw [hfinished]
    exact .single (.reset (hidle hmeets))
  | start i nodeName config =>
    rw [step] at h
    cases hnode : s.nodes i with
    | none =>
      rw [hnode] at h
      cases h
      rw [setNode, claims_setNode]
      exact .single (.drop i _ List.nil_subperm)
    | some node =>
      rw [hnode] at h
      cases h
  | kill i =>
    cases h
    rw [setNode, claims_setNode]
    exact .single (.drop i _ List.nil_subperm)
  | getJobs i locked => exact refines_node hs rfl h
  | insertResult i => exact refines_node hs rfl h
  | markDone i => exact refines_node hs rfl h
  | main i a => exact refines_node hs rfl h
  | finish i place S => exact refines_node hs rfl h

end Refines

/-! ## Runs of the cluster -/

section Safety

variable {s s' : SolverCluster} {i : ℕ}

theorem safe_empty : Safe R empty where
  inputs := List.nodup_nil
  results := List.nodup_nil
  claims :=
    { nodup := fun _ => List.nodup_nil
      apart := fun _ _ _ _ hk => absurd hk List.not_mem_nil
      started := fun _ _ hk => absurd hk List.not_mem_nil
      unfinished := fun _ _ hk => absurd hk List.not_mem_nil
      todo := fun _ hk => absurd hk (Option.some_ne_none _).symm
      done := fun _ hk => absurd hk (Option.some_ne_none _).symm
      known := fun _ hk => absurd hk List.not_mem_nil }
  reported _ hr := absurd hr List.not_mem_nil
  fine _ _ hnode := by cases hnode

theorem fine_update {node : Option SolverNode} (hold : ∀ j n, s.nodes j = some n → n.Fine R t)
    (hnew : ∀ n, node = some n → n.Fine R t) (j : ℕ) (n : SolverNode)
    (hn : Function.update s.nodes i node j = some n) : n.Fine R t := by
  by_cases hj : j = i
  · subst hj
    rw [Function.update_self] at hn
    exact hnew n hn
  · rw [Function.update_of_ne hj] at hn
    exact hold j n hn

/-- The states of the rows change and nothing else. -/
theorem Safe.restated (hs : s.Safe R) (hclaims : ClaimTable.Sound (SolverCluster.claims ⟨t', s.nodes⟩))
    (hjobs : t'.inputs.map (·.job) = s.tables.inputs.map (·.job))
    (hresults : t'.results = s.tables.results) : Safe R ⟨t', s.nodes⟩ where
  inputs := by
    rw [JobTables.keys_eq, hjobs, ← JobTables.keys_eq]
    exact hs.inputs
  results := by
    rw [JobTables.resultKeys, hresults]
    exact hs.results
  claims := hclaims
  reported result hr := by
    rw [hjobs]
    exact hs.reported result (hresults ▸ hr)
  fine i node hnode := by
    refine (hs.fine i node hnode).tables (hjobs ▸ List.Subset.refl _) ?_
    rw [JobTables.resultKeys, JobTables.resultKeys, hresults]
    exact List.Subset.refl _

open SolverNode in
theorem Safe.effect (hs : s.Safe R) (hnode : s.nodes i = some node)
    (hclaims : ClaimTable.Sound
      (SolverCluster.claims ⟨t', Function.update s.nodes i (some node')⟩))
    (h : Effect R s.tables node t' node') :
    Safe R ⟨t', Function.update s.nodes i (some node')⟩ := by
  have hothers : ∀ {t' node'}, (∀ j n, s.nodes j = some n → n.Fine R t') → node'.Fine R t' →
      ∀ j n, Function.update s.nodes i (some node') j = some n → n.Fine R t' :=
    fun hold hnew => fine_update hold fun _ hn => Option.some.inj hn ▸ hnew
  cases h with
  | keep hheld hfine => exact ⟨hs.inputs, hs.results, hclaims, hs.reported, hothers hs.fine hfine⟩
  | grab hjobs hheld hfine =>
    obtain ⟨-, -, -, -, -, hsame, hresults⟩ :=
      JobTables.handleGetJobs_eq hs.inputs (hs.fine i node hnode).name hjobs
    refine ⟨?_, ?_, hclaims, fun r hr => ?_, hothers (fun j n hn => ?_) hfine⟩
    · rw [JobTables.keys_eq, hsame, ← JobTables.keys_eq]
      exact hs.inputs
    · rw [JobTables.resultKeys, hresults]
      exact hs.results
    · rw [hsame]
      exact hs.reported r (hresults ▸ hr)
    · refine (hs.fine j n hn).tables (hsame ▸ List.Subset.refl _) ?_
      rw [JobTables.resultKeys, JobTables.resultKeys, hresults]
      exact List.Subset.refl _
  | @insert node' result hfresh hheld hreported hfine =>
    refine ⟨hs.inputs, ?_, hclaims, fun r hr => ?_, hothers (fun j n hn => ?_) hfine⟩
    · rw [JobTables.resultKeys, List.map_append, List.map_singleton, List.nodup_append_comm]
      exact List.nodup_cons.mpr ⟨hfresh, hs.results⟩
    · rcases List.mem_append.mp hr with hr | hr
      · exact hs.reported r hr
      · exact List.mem_singleton.mp hr ▸ hreported
    · refine (hs.fine j n hn).tables (List.Subset.refl _) ?_
      rw [JobTables.resultKeys, JobTables.resultKeys, List.map_append]
      exact List.subset_append_left _ _
  | @mark node' result hmem hheld hfine =>
    have hjobs : (s.tables.markDone result).inputs.map (·.job) = s.tables.inputs.map (·.job) :=
      JobTables.jobs_setState
    refine ⟨?_, hs.results, hclaims, fun r hr => ?_, hothers (fun j n hn => ?_) hfine⟩
    · rw [JobTables.keys_eq, hjobs, ← JobTables.keys_eq]
      exact hs.inputs
    · rw [hjobs]
      exact hs.reported r hr
    · exact (hs.fine j n hn).tables (hjobs ▸ List.Subset.refl _) (List.Subset.refl _)

theorem Safe.nodeStep {a : Action} (hs : s.Safe R) (hclaims : ClaimTable.Sound s'.claims)
    (ha : a.node.isSome) (h : step R s a = some s') : s'.Safe R := by
  obtain ⟨i, node, t', node', hnode, heffect, rfl⟩ := effect_of_step hs ha h
  exact hs.effect hnode hclaims heffect

theorem Safe.step {a : Action} (hs : s.Safe R) (hmeets : s.Meets a) (h : step R s a = some s') :
    s'.Safe R := by
  have hclaims := hs.claims.steps (refines hs hmeets h)
  cases a with
  | fillJobInput job =>
    obtain ⟨tables, htables, h⟩ := Option.bind_eq_some_iff.mp h
    cases h
    obtain ⟨hnone, -, hinputs, hresults⟩ := JobTables.status_fillJobInput htables
    have hjobs : s.tables.inputs.map (·.job) ⊆ tables.inputs.map (·.job) := by
      rw [hinputs, List.map_append]
      exact List.subset_append_left _ _
    refine ⟨?_, ?_, hclaims, fun r hr => ?_, fun j n hn => ?_⟩
    · rw [hinputs, List.map_append, List.map_singleton, List.nodup_append_comm]
      exact List.nodup_cons.mpr ⟨JobTables.status_eq_none_iff.mp hnone, hs.inputs⟩
    · rw [JobTables.resultKeys, hresults]
      exact hs.results
    · exact (hs.reported r (hresults ▸ hr)).mono hjobs
    · refine (hs.fine j n hn).tables hjobs ?_
      rw [JobTables.resultKeys, JobTables.resultKeys, hresults]
      exact List.Subset.refl _
  | jobInputGc =>
    cases h
    exact hs.restated hclaims JobTables.jobs_setState rfl
  | jobInputKillZombies =>
    cases h
    exact hs.restated hclaims JobTables.jobs_setState rfl
  | requeueMissingResults =>
    cases h
    exact hs.restated hclaims JobTables.jobs_setState rfl
  | requeueFromMissing =>
    cases h
    rw [requeueFromMissing_eq fun result hresult => resultCategory_ne (hs.reported result hresult)]
    exact hs
  | resetJobs =>
    cases h
    have hjobs := JobTables.jobs_resetJobs (t := s.tables)
    refine ⟨?_, List.nodup_nil, hclaims, fun r hr => absurd hr List.not_mem_nil, fun j n hn => ?_⟩
    · rw [JobTables.keys_eq, hjobs, ← JobTables.keys_eq]
      exact hs.inputs
    · have hfine := hs.fine j n hn
      refine ⟨hfine.name, hfine.known.mono (hjobs ▸ List.Subset.refl _), fun hinserted => ?_⟩
      rw [hfine.not_inserted_of_ended (hmeets j n hn)] at hinserted
      cases hinserted
  | start i nodeName config =>
    rw [SolverCluster.step] at h
    cases hnode : s.nodes i with
    | none =>
      rw [hnode] at h
      cases h
      refine ⟨hs.inputs, hs.results, hclaims, hs.reported, fine_update hs.fine fun n hn => ?_⟩
      cases hn
      exact ⟨hmeets, Solver.known_init, fun hfalse => absurd hfalse Bool.false_ne_true⟩
    | some node =>
      rw [hnode] at h
      cases h
  | kill i =>
    cases h
    refine ⟨hs.inputs, hs.results, hclaims, hs.reported, fine_update hs.fine fun n hn => ?_⟩
    cases hn
  | getJobs i locked => exact hs.nodeStep hclaims rfl h
  | insertResult i => exact hs.nodeStep hclaims rfl h
  | markDone i => exact hs.nodeStep hclaims rfl h
  | main i a => exact hs.nodeStep hclaims rfl h
  | finish i place S => exact hs.nodeStep hclaims rfl h

theorem safe_of_reach (h : Runs.Reach (step R) Meets empty s) : s.Safe R :=
  h.invariant safe_empty fun hs hm hstep => hs.step hm hstep

/-- After both scripts no row is started. -/
theorem settled_scripts {row : JobInput}
    (hrow : row ∈ s.tables.jobInputGc.jobInputKillZombies.inputs) : row.jobState ≠ .started := by
  obtain ⟨marked, hmarked, hif⟩ := List.mem_map.mp hrow
  obtain ⟨before, -, hbefore⟩ := List.mem_map.mp hmarked
  have hresults : s.tables.jobInputGc.resultKeys = s.tables.resultKeys := rfl
  rw [hresults] at hif
  intro hstarted
  by_cases hdone : before.jobState = .started ∧ before.key ∈ s.tables.resultKeys
  · rw [if_pos (decide_eq_true hdone)] at hbefore
    subst hbefore
    subst hif
    simp at hstarted
  · rw [if_neg (by simpa using hdone)] at hbefore
    subst hbefore
    subst hif
    split_ifs at hstarted with hkill
    exact hdone ⟨hstarted, by_contra fun hmem => hkill (decide_eq_true ⟨hstarted, hmem⟩)⟩

/-- A node is killed between its two statements, and the script finds the result. -/
def killedWrite : List Action :=
  [.fillJobInput lodashJob, .start 0 "a" ⟨2⟩, .getJobs 0 [], .main 0 .raiseActiveJobs,
    .main 0 .spawn, .finish 0 0 registryEmpty, .main 0 .check, .main 0 .receive, .insertResult 0,
    .kill 0, .jobInputGc, .start 1 "a" ⟨2⟩, .getJobs 1 []]

end Safety

end SolverCluster

end NpmFollower.HistoricSolverJob
