import NpmFollower.Library.FiniteMap
import NpmFollower.Library.Runs
import NpmFollower.PostgresDb.CustomTypes

/-! # The pool of workers

A bounded channel carries the job ids of available workers. A call takes an id,
checks its worker, and hands it out behind a guard whose drop sends the id back;
a worker that is too old or has no network is replaced. Commands on the cluster
can fail, and a call can be dropped wherever it waits.
-/

namespace NpmFollower.BlobIdxServer.Job

open Std PostgresDb

inductive WorkerStatus where
  | queued
  | running (startedAt : DateTime) (nodeId : String)
deriving DecidableEq

structure Worker where
  jobId : UInt64
  status : WorkerStatus
deriving DecidableEq

/-- Seven hours, in milliseconds. -/
def maxWorkerAge : ℤ := 7 * 60 * 60 * 1000

/-- Where `replace_worker` waits, after the worker has been removed from the pool. -/
inductive Replacing where
  | cancel
  | spawn
  /-- The new worker is in the pool and its id is yet to be sent. -/
  | send (newJob : UInt64)
deriving DecidableEq

inductive Call where
  /-- `get_worker` waits for an available worker. -/
  | receive
  | waitRunning (worker : Worker)
  /-- The wait failed, and the id is sent back. -/
  | giveBack (jobId : UInt64)
  | check (worker : Worker)
  /-- A call of `replace_worker`, by `get_worker` or by the holder of a guard. -/
  | replace (holder : Option Worker) (r : Replacing)
  /-- `get_worker` has returned, and the caller holds the guard. -/
  | guard (worker : Worker)
  /-- The task that a dropped guard has spawned. -/
  | release (jobId : UInt64)
deriving DecidableEq

/-- `submitted` is what the cluster knows: the job ids it has given out. -/
structure WorkerPool where
  maxWorkerJobs : ℕ
  pool : BTreeMap UInt64 Worker
  avail : List UInt64
  calls : List Call
  submitted : List UInt64

inductive Action where
  | getWorker
  | recv (now : DateTime)
  | ran (startedAt : DateTime) (nodeId : String)
  | waitFailed
  | checked (hostname : Option String) (networkUp : Bool)
  | replaceWorker
  | cancelled (ok : Bool)
  /-- `sbatch` with the job id in its output, or a failure. -/
  | spawned (out : Option UInt64)
  | send
  | dropGuard
  /-- The future of the call is dropped where it waits. -/
  | abort
deriving DecidableEq

namespace Call

/-- How a call goes on after `replace_worker`: `get_worker` ignores its result and loops, and the
holder of a guard returns and drops it. -/
def replaced : Option Worker → Call
  | none => .receive
  | some w => .release w.jobId

/-- What is left of a call that is dropped. -/
def aborted : Call → List Call
  | .guard w | .replace (some w) _ => [.release w.jobId]
  | .release jobId => [.release jobId]
  | _ => []

end Call

namespace WorkerPool

variable (s : WorkerPool)

def init (maxWorkerJobs : ℕ) : WorkerPool := ⟨maxWorkerJobs, ∅, [], [], []⟩

/-- The capacity of the channel. -/
def capacity : ℕ := max 1 s.maxWorkerJobs

def insertWorker (w : Worker) : WorkerPool := { s with pool := s.pool.insert w.jobId w }

def removeWorker (jobId : UInt64) : WorkerPool := { s with pool := s.pool.erase jobId }

/-- The call at a place goes on as the given calls. -/
def setCall (i : ℕ) (calls : List Call) : WorkerPool :=
  { s with calls := s.calls.take i ++ calls ++ s.calls.drop (i + 1) }

/-- A line of `squeue`: with a status other than `R` and `PD` it is no worker. -/
structure SqueueLine where
  jobId : UInt64
  status : String
  startedAt : DateTime
  nodeId : String

def SqueueLine.worker (line : SqueueLine) : Option Worker :=
  if line.status = "R" then some ⟨line.jobId, .running line.startedAt line.nodeId⟩
  else if line.status = "PD" then some ⟨line.jobId, .queued⟩
  else none

/-- A worker joins the pool and its id the channel. -/
def addWorker (w : Worker) : WorkerPool :=
  { s.insertWorker w with avail := s.avail ++ [w.jobId], submitted := s.submitted ++ [w.jobId] }

/-- `populate`, with the lines of `squeue`, the nodes that accept a session and the ids that
`sbatch` prints. Nothing else can use the pool meanwhile. -/
def populate (lines : List SqueueLine) (jumped : String → Bool) (spawned : List UInt64) :
    Option WorkerPool :=
  let found := (lines.filterMap SqueueLine.worker).take s.maxWorkerJobs
  let reached := found.all fun w =>
    match w.status with
    | .queued => true
    | .running _ nodeId => jumped nodeId
  if s.pool.isEmpty && reached && decide (spawned.length = s.maxWorkerJobs - found.length) then
    some ((found ++ spawned.map fun jobId => Worker.mk jobId .queued).foldl addWorker s)
  else none

/-- A call takes the first id of the channel. -/
def recv (i : ℕ) (now : DateTime) : Option WorkerPool :=
  match s.avail with
  | [] => none
  | jobId :: rest =>
    let s := { s with avail := rest }
    match s.pool[jobId]? with
    | none => some s
    | some w =>
      match w.status with
      | .queued => some (s.setCall i [.waitRunning w])
      | .running startedAt _ =>
        if now - startedAt > maxWorkerAge then
          some ((s.removeWorker w.jobId).setCall i [.replace none .cancel])
        else some (s.setCall i [.check w])

def checked (i : ℕ) (w : Worker) (hostname : Option String) (networkUp : Bool) : WorkerPool :=
  if networkUp && hostname.any fun h => !decide ("login".toList <:+: h.toList) then
    s.setCall i [.guard w]
  else (s.removeWorker w.jobId).setCall i [.replace none .cancel]

/-- `scancel` is followed by the check of `spawn_worker`. -/
def cancelled (i : ℕ) (holder : Option Worker) (ok : Bool) : WorkerPool :=
  if ok && decide (s.pool.size < s.maxWorkerJobs) then s.setCall i [.replace holder .spawn]
  else s.setCall i [.replaced holder]

def spawned (i : ℕ) (holder : Option Worker) : Option UInt64 → WorkerPool
  | none => s.setCall i [.replaced holder]
  | some newJob =>
    { s.insertWorker ⟨newJob, .queued⟩ with submitted := s.submitted ++ [newJob] }.setCall i
      [.replace holder (.send newJob)]

/-- A send waits for room in the channel. -/
def send (i : ℕ) (jobId : UInt64) (calls : List Call) : Option WorkerPool :=
  if s.avail.length < s.capacity then
    some ({ s with avail := s.avail ++ [jobId] }.setCall i calls)
  else none

def callStep (i : ℕ) : Call → Action → Option WorkerPool
  | .receive, .recv now => s.recv i now
  | .waitRunning w, .ran startedAt nodeId =>
    let w := { w with status := .running startedAt nodeId }
    some ((s.insertWorker w).setCall i [.guard w])
  | .waitRunning w, .waitFailed => some (s.setCall i [.giveBack w.jobId])
  | .giveBack jobId, .send => s.send i jobId []
  | .check w, .checked hostname networkUp => some (s.checked i w hostname networkUp)
  | .guard w, .replaceWorker =>
    some ((s.removeWorker w.jobId).setCall i [.replace (some w) .cancel])
  | .guard w, .dropGuard => some (s.setCall i [.release w.jobId])
  | .replace holder .cancel, .cancelled ok => some (s.cancelled i holder ok)
  | .replace holder .spawn, .spawned out => some (s.spawned i holder out)
  | .replace holder (.send newJob), .send => s.send i newJob [.replaced holder]
  | .release jobId, .send => s.send i jobId []
  | call, .abort => some (s.setCall i call.aborted)
  | _, _ => none

/-- A new call of `get_worker`, or a step of the call at a place. -/
def step (a : ℕ × Action) : Option WorkerPool :=
  match a.2 with
  | .getWorker => some { s with calls := s.calls ++ [.receive] }
  | _ => s.calls[a.1]?.bind fun call => s.callStep a.1 call a.2

end WorkerPool

end NpmFollower.BlobIdxServer.Job
