import NpmFollower.BlobIdxServer.Job.Tokens

/-! # One id for each worker

A populated pool has every worker's id in the channel. As long as no call is
dropped while it waits, each worker of the pool keeps exactly one id, so a job is
behind at most one guard.
-/

namespace NpmFollower.BlobIdxServer.Job

open Std PostgresDb TokenPool

namespace WorkerPool

variable {s s' s₀ : WorkerPool}

section Populate

theorem foldl_addWorker (ws : List Worker) (s : WorkerPool) :
    ws.foldl addWorker s = { s with
      pool := ws.foldl (fun pool w => pool.insert w.jobId w) s.pool
      avail := s.avail ++ ws.map (·.jobId)
      submitted := s.submitted ++ ws.map (·.jobId) } := by
  induction ws generalizing s with
  | nil => simp
  | cons w ws ih =>
    rw [List.foldl_cons, ih]
    simp [addWorker, insertWorker]

theorem mem_foldl_insert (ws : List Worker) (pool : BTreeMap UInt64 Worker) (jobId : UInt64) :
    jobId ∈ ws.foldl (fun pool w => pool.insert w.jobId w) pool ↔
      jobId ∈ ws.map (·.jobId) ∨ jobId ∈ pool := by
  induction ws generalizing pool with
  | nil => simp
  | cons w ws ih =>
    rw [List.foldl_cons, ih, FiniteMap.mem_insert, List.map_cons, List.mem_cons, or_assoc]
    exact or_left_comm.trans (or_congr_left eq_comm)

theorem keyed_foldl_insert (ws : List Worker) {pool : BTreeMap UInt64 Worker}
    (hpool : ∀ (jobId : UInt64) (w : Worker), pool[jobId]? = some w → w.jobId = jobId)
    (jobId : UInt64) (w : Worker)
    (h : (ws.foldl (fun pool w => pool.insert w.jobId w) pool)[jobId]? = some w) :
    w.jobId = jobId := by
  induction ws generalizing pool with
  | nil => exact hpool jobId w h
  | cons v ws ih =>
    refine ih (fun j u hu => ?_) h
    rw [FiniteMap.getElem?_insert] at hu
    split_ifs at hu with hj
    · cases hu
      exact hj
    · exact hpool j u hu

/-- The job ids that `populate` takes from `squeue` and from `sbatch`. -/
def populatedIds (maxWorkerJobs : ℕ) (lines : List SqueueLine) (spawned : List UInt64) :
    List UInt64 :=
  ((lines.filterMap SqueueLine.worker).take maxWorkerJobs).map (·.jobId) ++ spawned

/-- A pool that has just been populated, by a cluster that gives every job its own id. -/
def Populated (s₀ : WorkerPool) : Prop :=
  ∃ maxWorkerJobs lines jumped spawned, (populatedIds maxWorkerJobs lines spawned).Nodup ∧
    (init maxWorkerJobs).populate lines jumped spawned = some s₀

/-- Nobody has called, and the ids are those of the workers, as many as there may be. -/
theorem Populated.spec (h : Populated s₀) :
    s₀.calls = [] ∧ s₀.avail.Nodup ∧ s₀.avail.length = s₀.maxWorkerJobs ∧
      s₀.submitted = s₀.avail ∧ (∀ jobId, jobId ∈ s₀.pool ↔ jobId ∈ s₀.avail) ∧
      ∀ (jobId : UInt64) (w : Worker), s₀.pool[jobId]? = some w → w.jobId = jobId := by
  obtain ⟨n, lines, jumped, spawned, hnodup, h⟩ := h
  rw [populate] at h
  split_ifs at h with hcond
  cases h
  simp only [Bool.and_eq_true, decide_eq_true_eq] at hcond
  have hids : ((lines.filterMap SqueueLine.worker).take n ++
      spawned.map fun jobId => Worker.mk jobId .queued).map (·.jobId) =
      populatedIds n lines spawned := by
    simp [populatedIds, Function.comp_def]
  rw [foldl_addWorker]
  refine ⟨rfl, ?_, ?_, rfl, fun jobId => ?_, ?_⟩
  · exact (List.nil_append _).symm ▸ hids.symm ▸ hnodup
  · have hlength : spawned.length = n - ((lines.filterMap SqueueLine.worker).take n).length :=
      hcond.2
    have htake : ((lines.filterMap SqueueLine.worker).take n).length ≤ n := List.length_take_le ..
    simp only [init, List.nil_append, List.length_map, List.length_append]
    omega
  · rw [mem_foldl_insert]
    simp [init]
  · exact keyed_foldl_insert _ fun j w hw => by simp [init] at hw

theorem populated_getD {n : ℕ} {lines : List SqueueLine} {spawned : List UInt64}
    (hnodup : (populatedIds n lines spawned).Nodup)
    (h : ((init n).populate lines (fun _ => true) spawned).isSome) :
    Populated (((init n).populate lines (fun _ => true) spawned).getD (init n)) := by
  obtain ⟨s, hs⟩ := Option.isSome_iff_exists.mp h
  exact ⟨n, lines, fun _ => true, spawned, hnodup, by rw [hs, Option.getD_some]⟩

theorem Populated.tokens (h : Populated s₀) : s₀.tokens = ↑s₀.avail := by
  rw [WorkerPool.tokens, h.spec.1]
  exact add_zero _

theorem Populated.exact (h : Populated s₀) : s₀.desk.Exact := by
  obtain ⟨hcalls, hnodup, _, _, hmem, _⟩ := h.spec
  have htokens : s₀.desk.tokens = ↑s₀.avail := h.tokens
  rw [Desk.Exact, htokens]
  exact ⟨hnodup, fun x hx => (hmem x).mp ((mem_slots s₀ x).mp hx)⟩

theorem Populated.size (h : Populated s₀) : s₀.desk.size = s₀.maxWorkerJobs := by
  obtain ⟨hcalls, hnodup, hlength, _, hmem, _⟩ := h.spec
  have hslots : s₀.desk.slots = s₀.avail.toFinset := by
    ext x
    rw [mem_slots, hmem, List.mem_toFinset]
  have hunderway : s₀.desk.underway = 0 := by rw [desk, hcalls]; rfl
  rw [Desk.size, hslots, hunderway, List.toFinset_card_of_nodup hnodup, hlength]
  rfl

theorem Populated.inv (h : Populated s₀) : s₀.Inv := by
  obtain ⟨hcalls, hnodup, _, hsubmitted, hmem, hkeyed⟩ := h.spec
  refine ⟨h.exact.1, ?_, hkeyed, fun jobId hj => ?_, fun jobId hj => ?_, h.size.le⟩
  · rw [hcalls]
    exact fun c hc => absurd hc List.not_mem_nil
  · exact hsubmitted ▸ (hmem jobId).mp hj
  · rw [h.tokens] at hj
    exact hsubmitted ▸ hj

end Populate

/-- Steps of a cluster that gives every job its own id, with no call dropped while it waits. -/
def Uninterrupted (s : WorkerPool) (a : ℕ × Action) : Prop := s.FreshIds a ∧ a.2 ≠ .abort

instance (s : WorkerPool) (a : ℕ × Action) : Decidable (s.Uninterrupted a) :=
  inferInstanceAs (Decidable (s.FreshIds a ∧ a.2 ≠ .abort))

/-- A failed command of a replacement leaves the ids alone. -/
theorem tokens_of_loses {a : ℕ × Action} (hloses : s.Loses a) (habort : a.2 ≠ .abort)
    (h : s.step a = some s') : s'.tokens = s.tokens := by
  obtain ⟨i, act⟩ := a
  obtain ⟨c, hcall, hc⟩ := hloses
  have hcall' : s.calls[i]? = some c := hcall
  have hreplaced (holder : Option Worker) (hc : c.tokens = (holder.map (·.jobId)).toList) :
      (s.setCall i [.replaced holder]).tokens = s.tokens := by
    rw [tokens_setCall, tokens_of_call hcall', tokensOf_singleton, Call.tokens_replaced, hc]
  cases c with
  | replace holder r =>
    cases r with
    | cancel =>
      cases act with
      | cancelled ok =>
        cases ok with
        | true => cases hc
        | false =>
          simp only [step, hcall', Option.bind_some, callStep, cancelled] at h
          cases h
          exact hreplaced holder (Call.tokens_replace_cancel holder)
      | abort => exact absurd rfl habort
      | _ => cases hc
    | spawn =>
      cases act with
      | spawned out =>
        cases out with
        | some newJob => cases hc
        | none =>
          simp only [step, hcall', Option.bind_some, callStep, spawned] at h
          cases h
          exact hreplaced holder (Call.tokens_replace_spawn holder)
      | abort => exact absurd rfl habort
      | _ => cases hc
    | send newJob =>
      cases act with
      | abort => exact absurd rfl habort
      | _ => cases hc
  | waitRunning w =>
    cases act with
    | abort => exact absurd rfl habort
    | _ => cases hc
  | giveBack jobId =>
    cases act with
    | abort => exact absurd rfl habort
    | _ => cases hc
  | check w =>
    cases act with
    | abort => exact absurd rfl habort
    | _ => cases hc
  | _ => cases hc

theorem exact_step {a : ℕ × Action} (hinv : s.Inv) (hexact : s.desk.Exact)
    (hcond : s.Uninterrupted a) (h : s.step a = some s') : s'.Inv ∧ s'.desk.Exact := by
  obtain ⟨hdesk, hinv'⟩ := deskStep_of_step hinv hcond.1 h
  refine ⟨hinv', ?_⟩
  rcases hdesk with ⟨_, hstep⟩ | ⟨hloses, hloss⟩
  · exact hstep.exact hexact
  · exact hloss.exact hexact (tokens_of_loses hloses hcond.2 h)

theorem exact_of_reach (h₀ : Populated s₀) (hrun : Runs.Reach step Uninterrupted s₀ s) :
    s.Inv ∧ s.desk.Exact :=
  hrun.invariant (I := fun s => s.Inv ∧ s.desk.Exact) ⟨h₀.inv, h₀.exact⟩
    fun hs hcond hstep => exact_step hs.1 hs.2 hcond hstep

end WorkerPool

namespace Call

/-- The job of a live guard. Its holder keeps it during `replace_worker`. -/
def guarded : Call → Option UInt64
  | .guard w | .replace (some w) _ => some w.jobId
  | _ => none

theorem guarded_sublist (c : Call) : c.guarded.toList.Sublist c.tokens := by
  cases c with
  | replace holder r => cases holder <;> cases r <;> simp [guarded, tokens]
  | _ => simp [guarded, tokens]

end Call

namespace WorkerPool

variable {s s' s₀ : WorkerPool}

def guards (s : WorkerPool) : List UInt64 := s.calls.filterMap Call.guarded

theorem guards_sublist (calls : List Call) :
    (calls.filterMap Call.guarded).Sublist (calls.flatMap Call.tokens) := by
  induction calls with
  | nil => exact List.Sublist.refl _
  | cons c calls ih =>
    have hcons : (c :: calls).filterMap Call.guarded =
        c.guarded.toList ++ calls.filterMap Call.guarded := by
      rw [List.filterMap_cons]
      cases c.guarded <;> rfl
    rw [hcons, List.flatMap_cons]
    exact c.guarded_sublist.append ih

/-- Each worker of the pool has exactly one id on its way, and guards hold different jobs. -/
theorem exclusive_of_reach (h₀ : Populated s₀) (hrun : Runs.Reach step Uninterrupted s₀ s) :
    (∀ jobId ∈ s.pool, s.tokens.count jobId = 1) ∧ s.guards.Nodup := by
  obtain ⟨_, hexact⟩ := exact_of_reach h₀ hrun
  constructor
  · intro jobId hj
    exact hexact.count ((mem_slots s jobId).mpr hj)
  · have hheld : (s.calls.flatMap Call.tokens).Nodup :=
      Multiset.coe_nodup.mp (Multiset.nodup_add.mp hexact.1).2.1
    exact hheld.sublist (guards_sublist s.calls)

/-- A worker is replaced behind its guard while another guard is live. -/
theorem exclusive_replacing :
    ∃ s₀ s, Populated s₀ ∧ Runs.Reach step Uninterrupted s₀ s ∧ s.guards = [1, 2] ∧
      s.guards.Nodup ∧ ∀ jobId ∈ s.pool, s.tokens.count jobId = 1 := by
  let s₀ := ((init 2).populate [] (fun _ => true) [1, 2]).getD (init 2)
  let actions : List (ℕ × Action) :=
    [(0, .getWorker), (1, .getWorker), (0, .recv 0), (0, .ran 0 "c1"), (1, .recv 0),
      (1, .ran 0 "c2"), (0, .replaceWorker), (0, .cancelled true), (0, .spawned (some 3))]
  let s := (Runs.performIf step Uninterrupted s₀ actions).getD s₀
  have h₀ : Populated s₀ := populated_getD (by decide +kernel) (by decide +kernel)
  have hrun : Runs.Reach step Uninterrupted s₀ s := Runs.reachIf_getD s₀ (by decide +kernel)
  obtain ⟨hcount, hguards⟩ := exclusive_of_reach h₀ hrun
  exact ⟨s₀, s, h₀, hrun, by decide +kernel, hguards, hcount⟩

end WorkerPool

end NpmFollower.BlobIdxServer.Job
