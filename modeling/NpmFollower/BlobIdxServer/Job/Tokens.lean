import NpmFollower.BlobIdxServer.Job.Pool
import NpmFollower.Library.TokenPool

/-! # The ids on their way

The job id of a worker is in the channel, held by a call, or behind a guard. The
pool is seen as slots with tokens, and every step of a call as a step of that
abstract pool or as a loss.
-/

namespace NpmFollower.BlobIdxServer.Job

open Std PostgresDb TokenPool

namespace Call

/-- The job ids that a call holds or has yet to send. -/
def tokens : Call → List UInt64
  | .receive | .replace none .cancel | .replace none .spawn => []
  | .waitRunning w | .check w | .guard w => [w.jobId]
  | .giveBack jobId | .release jobId => [jobId]
  | .replace (some w) .cancel | .replace (some w) .spawn => [w.jobId]
  | .replace none (.send newJob) => [newJob]
  | .replace (some w) (.send newJob) => [newJob, w.jobId]

/-- Whether the call owes the pool a worker. -/
def underway : Call → ℕ
  | .replace _ .cancel | .replace _ .spawn => 1
  | _ => 0

/-- The worker of the pool that the call answers for. -/
def lent : Call → Option UInt64
  | .waitRunning w | .check w | .guard w => some w.jobId
  | .giveBack jobId | .replace _ (.send jobId) => some jobId
  | _ => none

/-- The step of the call loses a worker or its id: a command of a replacement fails, or the call is
dropped while it holds an id or owes a worker. -/
def loses : Call → Action → Bool
  | .replace _ .cancel, .cancelled false | .replace _ .spawn, .spawned none => true
  | .replace _ _, .abort | .waitRunning _, .abort | .giveBack _, .abort | .check _, .abort => true
  | _, _ => false

theorem mem_tokens_of_lent {c : Call} {jobId : UInt64} (h : c.lent = some jobId) :
    jobId ∈ c.tokens := by
  cases c with
  | replace holder r =>
    cases r with
    | send newJob =>
      cases h
      cases holder <;> simp [tokens]
    | _ => cases h
  | receive => cases h
  | release => cases h
  | _ =>
    cases h
    simp [tokens]

theorem tokens_replaced (holder : Option Worker) :
    (replaced holder).tokens = (holder.map (·.jobId)).toList := by
  cases holder <;> rfl

theorem tokens_replace_cancel (holder : Option Worker) :
    (replace holder .cancel).tokens = (holder.map (·.jobId)).toList := by
  cases holder <;> rfl

theorem tokens_replace_spawn (holder : Option Worker) :
    (replace holder .spawn).tokens = (holder.map (·.jobId)).toList := by
  cases holder <;> rfl

theorem tokens_replace_send (holder : Option Worker) (newJob : UInt64) :
    (replace holder (.send newJob)).tokens = newJob :: (holder.map (·.jobId)).toList := by
  cases holder <;> rfl

end Call

/-- The job id that `sbatch` has printed. -/
def Action.newJob : Action → Option UInt64
  | .spawned out => out
  | _ => none

namespace WorkerPool

variable {s s' : WorkerPool}

def tokensOf (calls : List Call) : Multiset UInt64 := ↑(calls.flatMap Call.tokens)

def underwayOf (calls : List Call) : ℕ := (calls.map Call.underway).sum

/-- All ids on their way. -/
def tokens (s : WorkerPool) : Multiset UInt64 := ↑s.avail + tokensOf s.calls

def desk (s : WorkerPool) : Desk UInt64 where
  slots := s.pool.keys.toFinset
  tokens := s.tokens
  underway := underwayOf s.calls

section Calls

variable {i : ℕ} {c : Call}

def others (s : WorkerPool) (i : ℕ) : List Call := s.calls.take i ++ s.calls.drop (i + 1)

theorem perm_others (h : s.calls[i]? = some c) : s.calls.Perm (c :: s.others i) := by
  obtain ⟨hi, hc⟩ := List.getElem?_eq_some_iff.mp h
  rw [others, ← List.eraseIdx_eq_take_drop_succ, ← hc]
  exact (List.getElem_cons_eraseIdx_perm hi).symm

theorem perm_setCall (s : WorkerPool) (i : ℕ) (calls : List Call) :
    (s.setCall i calls).calls.Perm (calls ++ s.others i) := by
  rw [setCall, others, List.append_assoc]
  exact List.perm_append_comm_assoc ..

theorem tokensOf_perm {l l' : List Call} (h : l.Perm l') : tokensOf l = tokensOf l' :=
  Multiset.coe_eq_coe.mpr (h.flatMap_right _)

theorem underwayOf_perm {l l' : List Call} (h : l.Perm l') : underwayOf l = underwayOf l' :=
  (h.map _).sum_eq

theorem tokensOf_append (l l' : List Call) : tokensOf (l ++ l') = tokensOf l + tokensOf l' := by
  rw [tokensOf, List.flatMap_append, ← Multiset.coe_add]
  rfl

theorem tokensOf_singleton (c : Call) : tokensOf [c] = ↑c.tokens := by
  rw [tokensOf, List.flatMap_singleton]

theorem tokens_of_call (h : s.calls[i]? = some c) :
    s.tokens = ↑s.avail + (↑c.tokens + tokensOf (s.others i)) := by
  rw [tokens, tokensOf_perm (perm_others h), ← List.singleton_append, tokensOf_append,
    tokensOf_singleton]

theorem underway_of_call (h : s.calls[i]? = some c) :
    underwayOf s.calls = c.underway + underwayOf (s.others i) := by
  rw [underwayOf_perm (perm_others h)]
  rfl

theorem tokens_setCall (s : WorkerPool) (i : ℕ) (calls : List Call) :
    (s.setCall i calls).tokens = ↑s.avail + (tokensOf calls + tokensOf (s.others i)) := by
  rw [tokens, tokensOf_perm (perm_setCall s i calls), tokensOf_append]
  rfl

theorem underway_setCall (s : WorkerPool) (i : ℕ) (calls : List Call) :
    underwayOf (s.setCall i calls).calls = underwayOf calls + underwayOf (s.others i) := by
  rw [underwayOf_perm (perm_setCall s i calls), underwayOf, List.map_append, List.sum_append]
  rfl

theorem mem_slots (s : WorkerPool) (jobId : UInt64) : jobId ∈ s.desk.slots ↔ jobId ∈ s.pool := by
  rw [desk, List.mem_toFinset, ExtTreeMap.mem_keys]

theorem card_slots (s : WorkerPool) : s.desk.slots.card = s.pool.size := by
  rw [desk, List.toFinset_card_of_nodup ExtTreeMap.nodup_keys, ExtTreeMap.length_keys]

theorem slots_insertWorker (s : WorkerPool) (w : Worker) :
    (s.insertWorker w).desk.slots = insert w.jobId s.desk.slots := by
  ext jobId
  rw [Finset.mem_insert, mem_slots, mem_slots, insertWorker, FiniteMap.mem_insert]
  exact or_congr_left eq_comm

theorem slots_removeWorker (s : WorkerPool) (jobId : UInt64) :
    (s.removeWorker jobId).desk.slots = s.desk.slots.erase jobId := by
  ext j
  rw [Finset.mem_erase, mem_slots, mem_slots, removeWorker, ExtTreeMap.mem_erase, ne_eq,
    LawfulEqCmp.compare_eq_iff_eq]
  exact and_congr_left' (not_congr eq_comm)

end Calls

/-- Ids differ, no id is forgotten by the cluster, the workers of calls in hand are in the pool. -/
structure Inv (s : WorkerPool) : Prop where
  nodup : s.tokens.Nodup
  lent : ∀ c ∈ s.calls, ∀ jobId, c.lent = some jobId → jobId ∈ s.pool
  keyed : ∀ (jobId : UInt64) (w : Worker), s.pool[jobId]? = some w → w.jobId = jobId
  slots : ∀ jobId ∈ s.pool, jobId ∈ s.submitted
  known : ∀ jobId ∈ s.tokens, jobId ∈ s.submitted
  size : s.desk.size ≤ s.maxWorkerJobs

/-- The cluster gives every job an id of its own. -/
def FreshIds (s : WorkerPool) (a : ℕ × Action) : Prop :=
  ∀ newJob, a.2 = .spawned (some newJob) → newJob ∉ s.submitted

instance (s : WorkerPool) (a : ℕ × Action) : Decidable (s.FreshIds a) :=
  decidable_of_iff (a.2.newJob.all fun newJob => decide (newJob ∉ s.submitted)) (by
    obtain ⟨i, act⟩ := a
    cases act with
    | spawned out => cases out <;> simp [FreshIds, Action.newJob]
    | _ => simp [FreshIds, Action.newJob])

/-- The step loses a worker or its id. -/
def Loses (s : WorkerPool) (a : ℕ × Action) : Prop :=
  ∃ c ∈ s.calls[a.1]?, c.loses a.2

instance (s : WorkerPool) (a : ℕ × Action) : Decidable (s.Loses a) :=
  inferInstanceAs (Decidable (∃ c ∈ s.calls[a.1]?, c.loses a.2))

section Moves

variable {i : ℕ} {c : Call} {calls : List Call}

theorem mem_others {c' : Call} (h : c' ∈ s.others i) : c' ∈ s.calls := by
  rcases List.mem_append.mp h with h | h
  · exact List.mem_of_mem_take h
  · exact List.mem_of_mem_drop h

theorem mem_tokensOf {l : List Call} {c' : Call} {jobId : UInt64} (hc : c' ∈ l)
    (h : jobId ∈ c'.tokens) : jobId ∈ tokensOf l :=
  Multiset.mem_coe.mpr (List.mem_flatMap.mpr ⟨c', hc, h⟩)

/-- One call goes on, after a change of the rest of the pool. -/
theorem inv_setCall {s₀ : WorkerPool} (hinv : s.Inv) (hcalls : s₀.calls = s.calls)
    (hmax : s₀.maxWorkerJobs = s.maxWorkerJobs) (hnodup : (s₀.setCall i calls).tokens.Nodup)
    (hsize : (s₀.setCall i calls).desk.size ≤ s.desk.size)
    (hpool : ∀ jobId ∈ s.pool, jobId ∈ tokensOf (s.others i) → jobId ∈ s₀.pool)
    (hlent : ∀ c ∈ calls, ∀ jobId, c.lent = some jobId → jobId ∈ s₀.pool)
    (hkeyed : ∀ (jobId : UInt64) (w : Worker), s₀.pool[jobId]? = some w → w.jobId = jobId)
    (hslots : ∀ jobId ∈ s₀.pool, jobId ∈ s₀.submitted)
    (hknown : ∀ jobId ∈ (s₀.setCall i calls).tokens, jobId ∈ s₀.submitted) :
    (s₀.setCall i calls).Inv where
  nodup := hnodup
  lent c' hc' jobId hjob := by
    rcases List.mem_append.mp ((perm_setCall s₀ i calls).mem_iff.mp hc') with hc' | hc'
    · exact hlent c' hc' jobId hjob
    · have hothers : c' ∈ s.others i := by rwa [others, ← hcalls]
      refine hpool jobId (hinv.lent c' (mem_others hothers) jobId hjob) ?_
      exact mem_tokensOf hothers (Call.mem_tokens_of_lent hjob)
  keyed := hkeyed
  slots := hslots
  known := hknown
  size := hsize.trans (hinv.size.trans hmax.symm.le)

/-- Ids move between the channel and the call. -/
theorem quiet_setCall {avail : List UInt64} (hinv : s.Inv) (hcall : s.calls[i]? = some c)
    (htokens : (↑avail : Multiset UInt64) + tokensOf calls = ↑s.avail + ↑c.tokens)
    (hunderway : underwayOf calls = c.underway)
    (hlent : ∀ c ∈ calls, ∀ jobId, c.lent = some jobId → jobId ∈ s.pool) :
    Step s.desk ({ s with avail }.setCall i calls).desk ∧ ({ s with avail }.setCall i calls).Inv := by
  have htokens' : ({ s with avail }.setCall i calls).tokens = s.tokens := by
    rw [tokens_setCall, tokens_of_call hcall, ← add_assoc, htokens, add_assoc]
    rfl
  have hstep : Step s.desk ({ s with avail }.setCall i calls).desk := by
    refine .quiet rfl htokens' ?_
    exact (underway_setCall { s with avail } i calls).trans
      ((underway_of_call hcall).trans (by rw [hunderway]; rfl)).symm
  refine ⟨hstep, ?_⟩
  refine inv_setCall hinv rfl rfl (hstep.nodup hinv.nodup) hstep.size.le (fun _ hj _ => hj) hlent
    hinv.keyed hinv.slots fun jobId hj => hinv.known jobId ?_
  rwa [htokens'] at hj

/-- The call takes its worker out of the pool, with the id. -/
theorem retire_setCall {avail : List UInt64} {jobId : UInt64} (hinv : s.Inv)
    (hcall : s.calls[i]? = some c) (hslot : jobId ∈ s.pool) (hunderway : c.underway = 0)
    (htokens : (↑s.avail : Multiset UInt64) + ↑c.tokens = jobId ::ₘ ↑avail) :
    Step s.desk (({ s with avail }.removeWorker jobId).setCall i [.replace none .cancel]).desk ∧
      (({ s with avail }.removeWorker jobId).setCall i [.replace none .cancel]).Inv := by
  have hafter : (({ s with avail }.removeWorker jobId).setCall i [.replace none .cancel]).tokens =
      ↑avail + tokensOf (s.others i) := by
    rw [tokens_setCall, tokensOf_singleton]
    exact congrArg _ (zero_add _)
  have htokens' : s.tokens =
      jobId ::ₘ (({ s with avail }.removeWorker jobId).setCall i [.replace none .cancel]).tokens := by
    rw [hafter, tokens_of_call hcall, ← add_assoc, htokens, Multiset.cons_add]
  have hstep : Step s.desk
      (({ s with avail }.removeWorker jobId).setCall i [.replace none .cancel]).desk := by
    refine .retire ((mem_slots s jobId).mpr hslot) (slots_removeWorker { s with avail } jobId)
      htokens' ?_
    have hbefore : s.desk.underway = c.underway + underwayOf (s.others i) := underway_of_call hcall
    have hafter : (({ s with avail }.removeWorker jobId).setCall i
        [.replace none .cancel]).desk.underway = 1 + underwayOf (s.others i) :=
      underway_setCall _ i _
    omega
  have hnot : jobId ∉ tokensOf (s.others i) := by
    have hnodup := hinv.nodup
    rw [htokens', hafter] at hnodup
    exact fun hmem => (Multiset.nodup_cons.mp hnodup).1 (Multiset.mem_add.mpr (.inr hmem))
  refine ⟨hstep, ?_⟩
  refine inv_setCall hinv rfl rfl (hstep.nodup hinv.nodup) hstep.size.le (fun j hj hothers => ?_)
    (fun c' hc' j hj => ?_) (fun j w hw => ?_) (fun j hj => ?_) fun j hj => ?_
  · refine ExtTreeMap.mem_erase.mpr ⟨?_, hj⟩
    rw [ne_eq, LawfulEqCmp.compare_eq_iff_eq]
    rintro rfl
    exact hnot hothers
  · rw [List.mem_singleton.mp hc'] at hj
    cases hj
  · rw [removeWorker, FiniteMap.getElem?_erase] at hw
    split_ifs at hw
    exact hinv.keyed j w hw
  · exact hinv.slots j (ExtTreeMap.mem_erase.mp hj).2
  · refine hinv.known j ?_
    rw [htokens']
    exact Multiset.mem_cons_of_mem hj

/-- The holder of a guard takes its worker out of the pool and keeps the id. -/
theorem withdraw_setCall {w : Worker} (hinv : s.Inv) (hcall : s.calls[i]? = some (.guard w)) :
    Step s.desk ((s.removeWorker w.jobId).setCall i [.replace (some w) .cancel]).desk ∧
      ((s.removeWorker w.jobId).setCall i [.replace (some w) .cancel]).Inv := by
  have hslot : w.jobId ∈ s.pool := hinv.lent _ (List.mem_of_getElem? hcall) w.jobId rfl
  have htokens : ((s.removeWorker w.jobId).setCall i [.replace (some w) .cancel]).tokens =
      s.tokens := by
    rw [tokens_setCall, tokens_of_call hcall, tokensOf_singleton]
    rfl
  have htoken : w.jobId ∈ s.tokens := by
    rw [tokens_of_call hcall]
    exact Multiset.mem_add.mpr (.inr (Multiset.mem_add.mpr (.inl (List.mem_singleton_self _))))
  have hstep : Step s.desk
      ((s.removeWorker w.jobId).setCall i [.replace (some w) .cancel]).desk := by
    refine .withdraw ((mem_slots s _).mpr hslot) htoken (slots_removeWorker s _) htokens ?_
    have hbefore : s.desk.underway = 0 + underwayOf (s.others i) := underway_of_call hcall
    have hafter : ((s.removeWorker w.jobId).setCall i [.replace (some w) .cancel]).desk.underway =
        1 + underwayOf (s.others i) := underway_setCall _ i _
    omega
  have hnot : w.jobId ∉ tokensOf (s.others i) := by
    have hnodup := hinv.nodup
    rw [tokens_of_call hcall] at hnodup
    have hpair := (Multiset.nodup_add.mp (Multiset.nodup_add.mp hnodup).2.1).2.2
    exact Multiset.disjoint_left.mp hpair (List.mem_singleton_self _)
  refine ⟨hstep, ?_⟩
  refine inv_setCall hinv rfl rfl (hstep.nodup hinv.nodup) hstep.size.le (fun j hj hothers => ?_)
    (fun c' hc' j hj => ?_) (fun j w' hw => ?_) (fun j hj => ?_) fun j hj => ?_
  · refine ExtTreeMap.mem_erase.mpr ⟨?_, hj⟩
    rw [ne_eq, LawfulEqCmp.compare_eq_iff_eq]
    rintro rfl
    exact hnot hothers
  · rw [List.mem_singleton.mp hc'] at hj
    cases hj
  · rw [removeWorker, FiniteMap.getElem?_erase] at hw
    split_ifs at hw
    exact hinv.keyed j w' hw
  · exact hinv.slots j (ExtTreeMap.mem_erase.mp hj).2
  · refine hinv.known j ?_
    rwa [htokens] at hj

/-- A new worker joins the pool. -/
theorem renew_setCall {holder : Option Worker} {newJob : UInt64} (hinv : s.Inv)
    (hcall : s.calls[i]? = some (.replace holder .spawn)) (hnew : newJob ∉ s.submitted) :
    Step s.desk (s.spawned i holder (some newJob)).desk ∧
      (s.spawned i holder (some newJob)).Inv := by
  have htokens : (s.spawned i holder (some newJob)).tokens = newJob ::ₘ s.tokens := by
    have hafter : (s.spawned i holder (some newJob)).tokens = ↑s.avail +
        (tokensOf [.replace holder (.send newJob)] + tokensOf (s.others i)) := tokens_setCall _ i _
    rw [hafter, tokens_of_call hcall, tokensOf_singleton, Call.tokens_replace_send,
      Call.tokens_replace_spawn, ← Multiset.cons_coe, Multiset.cons_add, Multiset.add_cons]
  have hslots : (s.spawned i holder (some newJob)).desk.slots = insert newJob s.desk.slots :=
    slots_insertWorker s ⟨newJob, .queued⟩
  have hstep : Step s.desk (s.spawned i holder (some newJob)).desk := by
    refine .renew (fun hmem => hnew (hinv.slots newJob ((mem_slots s newJob).mp hmem)))
      (fun hmem => hnew (hinv.known newJob hmem)) hslots htokens ?_
    have hbefore : s.desk.underway = 1 + underwayOf (s.others i) := underway_of_call hcall
    have hafter : (s.spawned i holder (some newJob)).desk.underway =
        0 + underwayOf (s.others i) := underway_setCall _ i _
    omega
  have hmem (j : UInt64) : j ∈ (s.insertWorker ⟨newJob, .queued⟩).pool ↔
      newJob = j ∨ j ∈ s.pool := FiniteMap.mem_insert
  refine ⟨hstep, ?_⟩
  refine inv_setCall hinv rfl rfl (hstep.nodup hinv.nodup) hstep.size.le
    (fun j hj _ => (hmem j).mpr (.inr hj)) (fun c' hc' j hj => ?_) (fun j w hw => ?_)
    (fun j hj => ?_) fun j hj => ?_
  · rw [List.mem_singleton.mp hc'] at hj
    cases hj
    exact (hmem newJob).mpr (.inl rfl)
  · have hw' : (s.pool.insert newJob ⟨newJob, .queued⟩)[j]? = some w := hw
    rw [FiniteMap.getElem?_insert] at hw'
    split_ifs at hw' with hj
    · cases hw'
      exact hj
    · exact hinv.keyed j w hw'
  · rcases (hmem j).mp hj with rfl | hj
    · exact List.mem_append_right _ (List.mem_singleton_self _)
    · exact List.mem_append_left _ (hinv.slots j hj)
  · have hj' : j ∈ (s.spawned i holder (some newJob)).tokens := hj
    rw [htokens] at hj'
    rcases Multiset.mem_cons.mp hj' with rfl | hj
    · exact List.mem_append_right _ (List.mem_singleton_self _)
    · exact List.mem_append_left _ (hinv.known j hj)

/-- The worker that a call owes never comes. -/
theorem lose_slot (hinv : s.Inv) (hcall : s.calls[i]? = some c)
    (htokens : tokensOf calls = ↑c.tokens) (hunderway : c.underway = underwayOf calls + 1)
    (hlent : ∀ c ∈ calls, c.lent = none) :
    Loss s.desk (s.setCall i calls).desk ∧ (s.setCall i calls).Inv := by
  have htokens' : (s.setCall i calls).tokens = s.tokens := by
    rw [tokens_setCall, tokens_of_call hcall, htokens]
  have hloss : Loss s.desk (s.setCall i calls).desk := by
    refine .slot rfl htokens' ?_
    have hbefore : s.desk.underway = c.underway + underwayOf (s.others i) := underway_of_call hcall
    have hafter : (s.setCall i calls).desk.underway =
        underwayOf calls + underwayOf (s.others i) := underway_setCall s i calls
    omega
  refine ⟨hloss, ?_⟩
  refine inv_setCall hinv rfl rfl (hloss.nodup hinv.nodup) hloss.size_le (fun _ hj _ => hj)
    (fun c' hc' j hj => ?_) hinv.keyed hinv.slots fun j hj => hinv.known j ?_
  · rw [hlent c' hc'] at hj
    cases hj
  · rwa [htokens'] at hj

/-- A call is dropped with the id of a worker in the pool. -/
theorem lose_token {jobId : UInt64} (hinv : s.Inv) (hcall : s.calls[i]? = some c)
    (hjob : c.lent = some jobId) (htokens : ↑c.tokens = jobId ::ₘ tokensOf calls)
    (hunderway : underwayOf calls = c.underway) (hlent : ∀ c ∈ calls, c.lent = none) :
    Loss s.desk (s.setCall i calls).desk ∧ (s.setCall i calls).Inv := by
  have htokens' : s.tokens = jobId ::ₘ (s.setCall i calls).tokens := by
    rw [tokens_setCall, tokens_of_call hcall, htokens, Multiset.cons_add, Multiset.add_cons]
  have hloss : Loss s.desk (s.setCall i calls).desk := by
    refine .token ((mem_slots s jobId).mpr ?_) rfl htokens' ?_
    · exact hinv.lent c (List.mem_of_getElem? hcall) jobId hjob
    · have hbefore : s.desk.underway = c.underway + underwayOf (s.others i) :=
        underway_of_call hcall
      have hafter : (s.setCall i calls).desk.underway =
          underwayOf calls + underwayOf (s.others i) := underway_setCall s i calls
      omega
  refine ⟨hloss, ?_⟩
  refine inv_setCall hinv rfl rfl (hloss.nodup hinv.nodup) hloss.size_le (fun _ hj _ => hj)
    (fun c' hc' j hj => ?_) hinv.keyed hinv.slots fun j hj => hinv.known j ?_
  · rw [hlent c' hc'] at hj
    cases hj
  · rw [htokens']
    exact Multiset.mem_cons_of_mem hj

end Moves

section Step

variable {a : ℕ × Action} {i : ℕ} {c : Call}

/-- What a step is for the slots and tokens. -/
def DeskStep (s : WorkerPool) (lossy : Bool) (s' : WorkerPool) : Prop :=
  if lossy then Loss s.desk s'.desk else Step s.desk s'.desk

theorem step_getWorker (hinv : s.Inv) :
    DeskStep s false { s with calls := s.calls ++ [.receive] } ∧
      Inv { s with calls := s.calls ++ [.receive] } := by
  have htokens : tokens { s with calls := s.calls ++ [.receive] } = s.tokens := by
    rw [tokens, tokensOf_append]
    exact congrArg _ (add_zero _)
  have hstep : Step s.desk (desk { s with calls := s.calls ++ [.receive] }) := by
    refine .quiet rfl htokens ?_
    simp [desk, underwayOf, Call.underway]
  refine ⟨hstep, hstep.nodup hinv.nodup, fun c hc jobId hjob => ?_, hinv.keyed, hinv.slots,
    fun jobId hj => hinv.known jobId ?_, hstep.size.le.trans hinv.size⟩
  · rcases List.mem_append.mp hc with hc | hc
    · exact hinv.lent c hc jobId hjob
    · rw [List.mem_singleton.mp hc] at hjob
      cases hjob
  · rwa [htokens] at hj

theorem step_recv {now : DateTime} (hinv : s.Inv) (hcall : s.calls[i]? = some .receive)
    (h : s.recv i now = some s') : DeskStep s false s' ∧ s'.Inv := by
  rw [recv] at h
  split at h
  · cases h
  next jobId rest havail =>
    dsimp only at h
    have htake : (↑s.avail : Multiset UInt64) + ↑Call.receive.tokens = jobId ::ₘ ↑rest := by
      rw [havail]
      exact add_zero _
    cases hworker : s.pool[jobId]? with
    | none =>
      simp only [hworker] at h
      cases h
      have hgone : jobId ∉ s.pool := by
        rw [FiniteMap.mem_iff_getElem?, hworker]
        simp
      have htokens : s.tokens = jobId ::ₘ tokens { s with avail := rest } := by
        rw [tokens, havail, tokens, ← Multiset.cons_coe, Multiset.cons_add]
      have hstep : Step s.desk (desk { s with avail := rest }) :=
        .stale (fun hmem => hgone ((mem_slots s jobId).mp hmem)) rfl htokens rfl
      refine ⟨hstep, hstep.nodup hinv.nodup, hinv.lent, hinv.keyed, hinv.slots, fun j hj => ?_,
        hstep.size.le.trans hinv.size⟩
      refine hinv.known j ?_
      rw [htokens]
      exact Multiset.mem_cons_of_mem hj
    | some w =>
      simp only [hworker] at h
      have hslot : jobId ∈ s.pool := FiniteMap.mem_iff_getElem?.mpr ⟨w, hworker⟩
      have hkey : w.jobId = jobId := hinv.keyed jobId w hworker
      have hmoves {c : Call} (hc : c.tokens = [w.jobId]) (hzero : c.underway = 0)
          (hlent : ∀ j, c.lent = some j → j = w.jobId) :
          DeskStep s false ({ s with avail := rest }.setCall i [c]) ∧
            ({ s with avail := rest }.setCall i [c]).Inv := by
        refine quiet_setCall hinv hcall ?_ ?_ fun c' hc' j hj => ?_
        · rw [tokensOf_singleton, hc, htake, hkey, add_comm]
          rfl
        · simpa [underwayOf, Call.underway] using hzero
        · rw [List.mem_singleton.mp hc'] at hj
          rw [hlent j hj, hkey]
          exact hslot
      split at h
      · cases h
        exact hmoves rfl rfl fun j hj => (Option.some.inj hj).symm
      · split_ifs at h
        · cases h
          rw [hkey]
          exact retire_setCall hinv hcall hslot rfl htake
        · cases h
          exact hmoves rfl rfl fun j hj => (Option.some.inj hj).symm

theorem step_checked {w : Worker} (hinv : s.Inv) (hcall : s.calls[i]? = some (.check w))
    (hostname : Option String) (networkUp : Bool) :
    DeskStep s false (s.checked i w hostname networkUp) ∧ (s.checked i w hostname networkUp).Inv := by
  have hslot : w.jobId ∈ s.pool := hinv.lent _ (List.mem_of_getElem? hcall) w.jobId rfl
  rw [checked]
  split_ifs
  · refine quiet_setCall hinv hcall rfl rfl fun c' hc' j hj => ?_
    rw [List.mem_singleton.mp hc'] at hj
    cases hj
    exact hslot
  · have htokens : (↑s.avail : Multiset UInt64) + ↑[w.jobId] = w.jobId ::ₘ ↑s.avail := add_comm ..
    exact retire_setCall hinv hcall hslot rfl htokens

theorem step_ran {w : Worker} (hinv : s.Inv) (hcall : s.calls[i]? = some (.waitRunning w))
    (startedAt : DateTime) (nodeId : String) :
    let w' := { w with status := .running startedAt nodeId }
    DeskStep s false ((s.insertWorker w').setCall i [.guard w']) ∧
      ((s.insertWorker w').setCall i [.guard w']).Inv := by
  intro w'
  have hslot : w.jobId ∈ s.pool := hinv.lent _ (List.mem_of_getElem? hcall) w.jobId rfl
  have hmem (j : UInt64) : j ∈ (s.insertWorker w').pool ↔ j ∈ s.pool := by
    rw [insertWorker, FiniteMap.mem_insert, or_iff_right_of_imp]
    rintro rfl
    exact hslot
  have hslots : (s.insertWorker w').desk.slots = s.desk.slots := by
    ext j
    rw [mem_slots, mem_slots, hmem]
  -- the entry of the worker is its own again
  have hinv' : (s.insertWorker w').Inv := by
    refine ⟨hinv.nodup, fun c hc j hj => (hmem j).mpr (hinv.lent c hc j hj), fun j v hv => ?_,
      fun j hj => hinv.slots j ((hmem j).mp hj), hinv.known, ?_⟩
    · rw [insertWorker, FiniteMap.getElem?_insert] at hv
      split_ifs at hv with hkey
      · cases hv
        exact hkey
      · exact hinv.keyed j v hv
    · rw [Desk.size, hslots]
      exact hinv.size
  have hmoved : Step (s.insertWorker w').desk ((s.insertWorker w').setCall i [.guard w']).desk ∧
      ((s.insertWorker w').setCall i [.guard w']).Inv := by
    refine quiet_setCall hinv' hcall rfl rfl fun c' hc' j hj => ?_
    rw [List.mem_singleton.mp hc'] at hj
    cases hj
    exact (hmem w.jobId).mpr hslot
  refine ⟨?_, hmoved.2⟩
  have hquiet : Step s.desk (s.insertWorker w').desk := .quiet hslots rfl rfl
  have hfirst : (s.insertWorker w').desk = s.desk := Desk.ext hslots rfl rfl
  have hstep := hmoved.1
  rw [hfirst] at hstep
  exact hstep

theorem step_send {jobId : UInt64} {calls : List Call} (hinv : s.Inv)
    (hcall : s.calls[i]? = some c) (htokens : ↑c.tokens = jobId ::ₘ tokensOf calls)
    (hunderway : underwayOf calls = c.underway) (hlent : ∀ c ∈ calls, c.lent = none)
    (h : s.send i jobId calls = some s') : DeskStep s false s' ∧ s'.Inv := by
  rw [send] at h
  split_ifs at h
  cases h
  refine quiet_setCall hinv hcall ?_ hunderway fun c' hc' j hj => ?_
  · rw [htokens, ← Multiset.coe_add, Multiset.coe_singleton, add_assoc, Multiset.singleton_add]
  · rw [hlent c' hc'] at hj
    cases hj

theorem step_cancelled {holder : Option Worker} (hinv : s.Inv)
    (hcall : s.calls[i]? = some (.replace holder .cancel)) (ok : Bool) :
    DeskStep s (!ok) (s.cancelled i holder ok) ∧ (s.cancelled i holder ok).Inv := by
  -- a worker is owed, so there is room for it in the pool
  have hroom : s.pool.size < s.maxWorkerJobs := by
    have hsize := hinv.size
    have hunderway : s.desk.underway = 1 + underwayOf (s.others i) := underway_of_call hcall
    rw [Desk.size, card_slots] at hsize
    omega
  have hnone : (Call.replaced holder).lent = none := by cases holder <;> rfl
  cases ok with
  | true =>
    have heq : s.cancelled i holder true = s.setCall i [.replace holder .spawn] := by
      simp [cancelled, hroom]
    rw [heq]
    refine quiet_setCall hinv hcall ?_ rfl fun c' hc' j hj => ?_
    · rw [tokensOf_singleton, Call.tokens_replace_spawn, Call.tokens_replace_cancel]
    · rw [List.mem_singleton.mp hc'] at hj
      cases hj
  | false =>
    have heq : s.cancelled i holder false = s.setCall i [.replaced holder] := by simp [cancelled]
    rw [heq]
    refine lose_slot hinv hcall ?_ ?_ fun c' hc' => ?_
    · rw [tokensOf_singleton, Call.tokens_replaced, Call.tokens_replace_cancel]
    · cases holder <;> rfl
    · rw [List.mem_singleton.mp hc', hnone]

theorem step_spawned {holder : Option Worker} {out : Option UInt64} (hinv : s.Inv)
    (hcall : s.calls[i]? = some (.replace holder .spawn))
    (hfresh : ∀ newJob, out = some newJob → newJob ∉ s.submitted) :
    DeskStep s out.isNone (s.spawned i holder out) ∧ (s.spawned i holder out).Inv := by
  cases out with
  | some newJob => exact renew_setCall hinv hcall (hfresh newJob rfl)
  | none =>
    refine lose_slot hinv hcall ?_ ?_ fun c' hc' => ?_
    · rw [tokensOf_singleton, Call.tokens_replaced, Call.tokens_replace_spawn]
    · cases holder <;> rfl
    · rw [List.mem_singleton.mp hc']
      cases holder <;> rfl

theorem step_abort (hinv : s.Inv) (hcall : s.calls[i]? = some c) :
    DeskStep s (c.loses .abort) (s.setCall i c.aborted) ∧ (s.setCall i c.aborted).Inv := by
  have hnone : ∀ c' ∈ c.aborted, c'.lent = none := by
    intro c' hc'
    cases c with
    | guard w => rw [List.mem_singleton.mp hc']; rfl
    | release jobId => rw [List.mem_singleton.mp hc']; rfl
    | replace holder r =>
      cases holder with
      | none => cases hc'
      | some w => rw [List.mem_singleton.mp hc']; rfl
    | _ => cases hc'
  have hquiet (htokens : tokensOf c.aborted = ↑c.tokens) (hunderway : underwayOf c.aborted =
      c.underway) : Step s.desk (s.setCall i c.aborted).desk ∧ (s.setCall i c.aborted).Inv := by
    refine quiet_setCall hinv hcall (by rw [htokens]) hunderway fun c' hc' j hj => ?_
    rw [hnone c' hc'] at hj
    cases hj
  cases c with
  | receive => exact hquiet rfl rfl
  | guard w => exact hquiet rfl rfl
  | release jobId => exact hquiet rfl rfl
  | waitRunning w => exact lose_token hinv hcall rfl rfl rfl hnone
  | giveBack jobId => exact lose_token hinv hcall rfl rfl rfl hnone
  | check w => exact lose_token hinv hcall rfl rfl rfl hnone
  | replace holder r =>
    cases r with
    | send newJob => cases holder <;> exact lose_token hinv hcall rfl rfl rfl hnone
    | cancel => cases holder <;> exact lose_slot hinv hcall rfl rfl hnone
    | spawn => cases holder <;> exact lose_slot hinv hcall rfl rfl hnone

/-- A step of one call is a step of the abstract pool, or a loss. -/
theorem deskStep_callStep {act : Action} (hinv : s.Inv) (hcall : s.calls[i]? = some c)
    (hfresh : ∀ newJob, act = .spawned (some newJob) → newJob ∉ s.submitted)
    (h : s.callStep i c act = some s') : DeskStep s (c.loses act) s' ∧ s'.Inv := by
  unfold callStep at h
  split at h
  · exact step_recv hinv hcall h
  · cases h
    exact step_ran hinv hcall _ _
  next w =>
    cases h
    refine quiet_setCall hinv hcall rfl rfl fun c' hc' j hj => ?_
    rw [List.mem_singleton.mp hc'] at hj
    cases hj
    exact hinv.lent _ (List.mem_of_getElem? hcall) w.jobId rfl
  · exact step_send hinv hcall rfl rfl (fun c' hc' => absurd hc' List.not_mem_nil) h
  · cases h
    exact step_checked hinv hcall _ _
  · cases h
    exact withdraw_setCall hinv hcall
  · cases h
    refine quiet_setCall hinv hcall rfl rfl fun c' hc' j hj => ?_
    rw [List.mem_singleton.mp hc'] at hj
    cases hj
  next holder ok =>
    cases h
    cases ok with
    | true => exact step_cancelled hinv hcall true
    | false => exact step_cancelled hinv hcall false
  next holder out =>
    cases h
    have hout : DeskStep s out.isNone (s.spawned i holder out) ∧ (s.spawned i holder out).Inv :=
      step_spawned hinv hcall fun newJob hnew => hfresh newJob (by rw [hnew])
    cases out with
    | none => exact hout
    | some newJob => exact hout
  next holder newJob =>
    refine step_send hinv hcall ?_ ?_ (fun c' hc' => ?_) h
    · rw [Call.tokens_replace_send, tokensOf_singleton, Call.tokens_replaced, Multiset.cons_coe]
    · cases holder <;> rfl
    · rw [List.mem_singleton.mp hc']
      cases holder <;> rfl
  · exact step_send hinv hcall rfl rfl (fun c' hc' => absurd hc' List.not_mem_nil) h
  · cases h
    exact step_abort hinv hcall
  · cases h

/-- A step is a step of the abstract pool if it loses nothing, else a loss. -/
theorem deskStep_of_step (hinv : s.Inv) (hfresh : s.FreshIds a) (h : s.step a = some s') :
    ((¬s.Loses a ∧ Step s.desk s'.desk) ∨ (s.Loses a ∧ Loss s.desk s'.desk)) ∧ s'.Inv := by
  obtain ⟨i, act⟩ := a
  have hcase {lossy : Bool} (hlossy : s.Loses (i, act) ↔ lossy = true)
      (hdesk : DeskStep s lossy s' ∧ s'.Inv) :
      ((¬s.Loses (i, act) ∧ Step s.desk s'.desk) ∨ (s.Loses (i, act) ∧ Loss s.desk s'.desk)) ∧
        s'.Inv := by
    obtain ⟨hdesk, hinv'⟩ := hdesk
    refine ⟨?_, hinv'⟩
    cases lossy with
    | false => exact .inl ⟨by simp [hlossy], hdesk⟩
    | true => exact .inr ⟨hlossy.mpr rfl, hdesk⟩
  by_cases hact : act = .getWorker
  · subst hact
    cases h
    refine @hcase false ?_ (step_getWorker hinv)
    simp only [Bool.false_eq_true, iff_false]
    rintro ⟨c, _, hc⟩
    cases c with
    | replace holder r => cases r <;> cases hc
    | _ => cases hc
  · have hstep : (s.calls[i]?.bind fun call => s.callStep i call act) = some s' := by
      cases act <;> first | exact h | exact absurd rfl hact
    obtain ⟨c, hcall, hc⟩ := Option.bind_eq_some_iff.mp hstep
    refine hcase ?_ (deskStep_callStep hinv hcall hfresh hc)
    simp [Loses, hcall]

theorem maxWorkerJobs_of_step (h : s.step a = some s') : s'.maxWorkerJobs = s.maxWorkerJobs := by
  obtain ⟨i, act⟩ := a
  by_cases hact : act = .getWorker
  · subst hact
    cases h
    rfl
  have hstep : (s.calls[i]?.bind fun call => s.callStep i call act) = some s' := by
    cases act <;> first | exact h | exact absurd rfl hact
  obtain ⟨c, hcall, hc⟩ := Option.bind_eq_some_iff.mp hstep
  unfold callStep at hc
  split at hc
  · rw [recv] at hc
    split at hc
    · cases hc
    · dsimp only at hc
      split at hc
      · cases hc
        rfl
      · split at hc
        · cases hc
          rfl
        · split_ifs at hc <;> cases hc <;> rfl
  · cases hc
    rfl
  · cases hc
    rfl
  · rw [send] at hc
    split_ifs at hc
    cases hc
    rfl
  · cases hc
    rw [checked]
    split_ifs <;> rfl
  · cases hc
    rfl
  · cases hc
    rfl
  · cases hc
    rw [cancelled]
    split_ifs <;> rfl
  next holder out =>
    cases hc
    cases out <;> rfl
  · rw [send] at hc
    split_ifs at hc
    cases hc
    rfl
  · rw [send] at hc
    split_ifs at hc
    cases hc
    rfl
  · cases hc
    rfl
  · cases hc

end Step

end WorkerPool

end NpmFollower.BlobIdxServer.Job
