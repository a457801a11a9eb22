import NpmFollower.BlobIdxServer.Job.Exclusive

/-! # Room in the channel

The channel has room for one id of each worker the pool may hold. The id of a
replaced worker comes on top of that of its replacement, so a send need not wait
as long as such stale ids are made up for by ids that calls and guards hold.
-/

namespace NpmFollower.BlobIdxServer.Job

open Std PostgresDb TokenPool

namespace Call

/-- The job id that the call waits to send. -/
def sending : Call → Option UInt64
  | .giveBack jobId | .release jobId | .replace _ (.send jobId) => some jobId
  | _ => none

/-- The job ids that the call holds without sending them. -/
def held : Call → List UInt64
  | .waitRunning w | .check w | .guard w | .replace (some w) _ => [w.jobId]
  | _ => []

theorem tokens_eq (c : Call) : c.tokens = c.sending.toList ++ c.held := by
  cases c with
  | replace holder r => cases holder <;> cases r <;> rfl
  | _ => rfl

/-- The step puts one more id into the queue for the channel. -/
def queues : Call → Action → Bool
  | .waitRunning _, .waitFailed | .guard _, .dropGuard => true
  | .replace (some _) .cancel, .cancelled false | .replace (some _) .spawn, .spawned none => true
  | .replace _ .spawn, .spawned (some _) | .replace (some _) (.send _), .send => true
  | _, _ => false

end Call

namespace WorkerPool

variable {s s' s₀ : WorkerPool} {a : ℕ × Action}

/-- The ids in the channel and those that wait to be sent to it. -/
def queued (s : WorkerPool) : List UInt64 := s.avail ++ s.calls.filterMap Call.sending

/-- The ids that calls and guards hold. -/
def heldIds (s : WorkerPool) : List UInt64 := s.calls.flatMap Call.held

/-- The queued ids of workers that have been replaced. -/
def stale (s : WorkerPool) : ℕ := (s.queued.filter fun jobId => !s.pool.contains jobId).length

/-- The workers of the pool whose ids are held. -/
def out (s : WorkerPool) : ℕ := (s.heldIds.filter fun jobId => s.pool.contains jobId).length

/-- All ids on their way to the channel fit into it. -/
def FitsChannel (s : WorkerPool) : Prop := s.queued.length ≤ s.capacity

/-- A send that is waiting finds room. -/
theorem FitsChannel.room (h : s.FitsChannel) {c : Call} {jobId : UInt64} (hc : c ∈ s.calls)
    (hjob : c.sending = some jobId) : s.avail.length < s.capacity := by
  have hmem : jobId ∈ s.calls.filterMap Call.sending := List.mem_filterMap.mpr ⟨c, hc, hjob⟩
  have hpos := List.length_pos_of_mem hmem
  rw [FitsChannel, queued, List.length_append] at h
  omega

theorem tokens_eq_queued_add_held (s : WorkerPool) :
    s.tokens = ↑s.queued + ↑s.heldIds := by
  have hsplit (calls : List Call) : tokensOf calls =
      ↑(calls.filterMap Call.sending) + ↑(calls.flatMap Call.held) := by
    induction calls with
    | nil => rfl
    | cons c calls ih =>
      have hcons : (c :: calls).filterMap Call.sending =
          c.sending.toList ++ calls.filterMap Call.sending := by
        rw [List.filterMap_cons]
        cases c.sending <;> rfl
      rw [← List.singleton_append, tokensOf_append, tokensOf_singleton, ih, List.singleton_append,
        hcons, List.flatMap_cons, c.tokens_eq]
      simp only [← Multiset.coe_add]
      abel
  rw [tokens, hsplit, queued, heldIds, ← Multiset.coe_add, add_assoc]

/-- Each worker of the pool is queued or held, once. -/
theorem queued_add_out (hexact : s.desk.Exact) :
    s.queued.length + s.out = s.pool.size + s.stale := by
  have hall : (s.queued ++ s.heldIds).Nodup := by
    have hnodup : s.tokens.Nodup := hexact.1
    rwa [tokens_eq_queued_add_held] at hnodup
  have hpool : ((s.queued ++ s.heldIds).filter fun jobId => s.pool.contains jobId).length =
      s.pool.size := by
    rw [← List.toFinset_card_of_nodup (hall.filter _), ← card_slots]
    congr 1
    ext x
    rw [List.mem_toFinset, List.mem_filter, mem_slots, ExtTreeMap.contains_iff_mem,
      and_iff_right_iff_imp]
    intro hx
    have htoken : x ∈ s.tokens := hexact.2 x ((mem_slots s x).mpr hx)
    rwa [tokens_eq_queued_add_held] at htoken
  rw [List.filter_append, List.length_append] at hpool
  have hsplit := List.length_eq_length_filter_add (l := s.queued) fun jobId => s.pool.contains jobId
  rw [out, stale]
  omega

section Queue

variable {i : ℕ} {c : Call}

theorem length_queued_of_call (h : s.calls[i]? = some c) : s.queued.length =
    s.avail.length + (c.sending.toList.length + ((s.others i).filterMap Call.sending).length) := by
  rw [queued, List.length_append, ((perm_others h).filterMap _).length_eq, List.filterMap_cons]
  cases c.sending <;> simp [Nat.add_comm]

theorem length_queued_setCall (s : WorkerPool) (i : ℕ) (calls : List Call) :
    (s.setCall i calls).queued.length = s.avail.length + ((calls.filterMap Call.sending).length +
      ((s.others i).filterMap Call.sending).length) := by
  rw [queued, List.length_append, ((perm_setCall s i calls).filterMap _).length_eq,
    List.filterMap_append, List.length_append]
  rfl

/-- How the queue changes when a call goes on as `calls` with `avail` in the channel. -/
theorem length_queued_next {s₀ : WorkerPool} {calls : List Call} (hcall : s.calls[i]? = some c)
    (hothers : s₀.calls = s.calls) {n : ℕ}
    (hcount : s₀.avail.length + (calls.filterMap Call.sending).length + n =
      s.avail.length + c.sending.toList.length) :
    (s₀.setCall i calls).queued.length + n = s.queued.length := by
  rw [length_queued_setCall, length_queued_of_call hcall, others, others, hothers]
  omega

theorem length_queued_more {s₀ : WorkerPool} {calls : List Call} (hcall : s.calls[i]? = some c)
    (hothers : s₀.calls = s.calls)
    (hcount : s₀.avail.length + (calls.filterMap Call.sending).length =
      s.avail.length + c.sending.toList.length + 1) :
    (s₀.setCall i calls).queued.length = s.queued.length + 1 := by
  rw [length_queued_setCall, length_queued_of_call hcall, others, others, hothers]
  omega

/-- A step queues one id, or the queue gets no longer. -/
def QueueStep (s : WorkerPool) (queues : Bool) (s' : WorkerPool) : Prop :=
  if queues then s'.queued.length = s.queued.length + 1 else s'.queued.length ≤ s.queued.length

theorem queueStep_recv {now : DateTime} (hcall : s.calls[i]? = some .receive)
    (h : s.recv i now = some s') : QueueStep s false s' := by
  rw [recv] at h
  split at h
  · cases h
  next jobId rest havail =>
    have hlength : s.avail.length = rest.length + 1 := by rw [havail, List.length_cons]
    have hnext (s₀ : WorkerPool) (hcalls : s₀.calls = s.calls) (hrest : s₀.avail = rest)
        (calls : List Call) (hnone : calls.filterMap Call.sending = []) :
        QueueStep s false (s₀.setCall i calls) := by
      refine Nat.le.intro (length_queued_next hcall hcalls (n := 1) ?_)
      rw [hnone, hrest, hlength]
      rfl
    dsimp only at h
    split at h
    · cases h
      have hqueue : (queued { s with avail := rest }).length ≤ s.queued.length := by
        rw [queued, queued, List.length_append, List.length_append]
        dsimp only
        omega
      exact hqueue
    · split at h
      · cases h
        apply hnext <;> rfl
      · split_ifs at h <;> cases h <;> apply hnext <;> rfl

theorem queueStep_send {jobId : UInt64} {calls : List Call} (hcall : s.calls[i]? = some c)
    (hc : c.sending = some jobId) (h : s.send i jobId calls = some s') :
    s'.queued.length = s.queued.length + (calls.filterMap Call.sending).length := by
  rw [send] at h
  split_ifs at h
  cases h
  rw [length_queued_setCall, length_queued_of_call hcall, hc, List.length_append]
  simp only [others, Option.toList_some, List.length_singleton]
  omega

theorem queueStep_callStep {act : Action} (hinv : s.Inv) (hcall : s.calls[i]? = some c)
    (habort : act ≠ .abort) (h : s.callStep i c act = some s') :
    QueueStep s (c.queues act) s' := by
  unfold callStep at h
  split at h
  · exact queueStep_recv hcall h
  · cases h
    exact (length_queued_next hcall rfl (n := 0) rfl).le
  · cases h
    exact length_queued_more hcall rfl rfl
  · exact (queueStep_send hcall rfl h).le
  next w hostname networkUp =>
    cases h
    rw [checked]
    split_ifs
    · exact (length_queued_next hcall rfl (n := 0) rfl).le
    · exact (length_queued_next hcall rfl (n := 0) rfl).le
  · cases h
    exact (length_queued_next hcall rfl (n := 0) rfl).le
  · cases h
    exact length_queued_more hcall rfl rfl
  next holder ok =>
    cases h
    have hroom : s.pool.size < s.maxWorkerJobs := by
      have hsize := hinv.size
      have hunderway : s.desk.underway = 1 + underwayOf (s.others i) := underway_of_call hcall
      rw [Desk.size, card_slots] at hsize
      omega
    cases ok with
    | true =>
      have heq : s.cancelled i holder true = s.setCall i [.replace holder .spawn] := by
        simp [cancelled, hroom]
      rw [heq]
      cases holder <;> exact (length_queued_next hcall rfl (n := 0) rfl).le
    | false =>
      have heq : s.cancelled i holder false = s.setCall i [.replaced holder] := by simp [cancelled]
      rw [heq]
      cases holder with
      | none => exact (length_queued_next hcall rfl (n := 0) rfl).le
      | some w => exact length_queued_more hcall rfl rfl
  next holder out =>
    cases h
    cases out with
    | none =>
      cases holder with
      | none => exact (length_queued_next hcall rfl (n := 0) rfl).le
      | some w => exact length_queued_more hcall rfl rfl
    | some newJob => cases holder <;> exact length_queued_more hcall rfl rfl
  next holder newJob =>
    have hqueue := queueStep_send hcall rfl h
    cases holder with
    | none => exact hqueue.le
    | some w => exact hqueue
  · exact (queueStep_send hcall rfl h).le
  · exact absurd rfl habort
  · cases h

/-- The step puts one more id into the queue for the channel. -/
def Queues (s : WorkerPool) (a : ℕ × Action) : Prop :=
  ∃ c ∈ s.calls[a.1]?, c.queues a.2

instance (s : WorkerPool) (a : ℕ × Action) : Decidable (s.Queues a) :=
  inferInstanceAs (Decidable (∃ c ∈ s.calls[a.1]?, c.queues a.2))

theorem length_queued_of_step (hinv : s.Inv) (habort : a.2 ≠ .abort) (h : s.step a = some s') :
    (s.Queues a → s'.queued.length = s.queued.length + 1) ∧
      (¬s.Queues a → s'.queued.length ≤ s.queued.length) := by
  obtain ⟨i, act⟩ := a
  by_cases hact : act = .getWorker
  · subst hact
    cases h
    have hsame : (queued { s with calls := s.calls ++ [.receive] }).length = s.queued.length := by
      simp [queued, Call.sending]
    constructor
    · rintro ⟨c, _, hc⟩
      cases c with
      | replace holder r => cases holder <;> cases r <;> cases hc
      | _ => cases hc
    · intro _
      exact hsame.le
  have hstep : (s.calls[i]?.bind fun call => s.callStep i call act) = some s' := by
    cases act <;> first | exact h | exact absurd rfl hact
  obtain ⟨c, hcall, hc⟩ := Option.bind_eq_some_iff.mp hstep
  have hqueue := queueStep_callStep hinv hcall habort hc
  have hqueues : s.Queues (i, act) ↔ c.queues act = true := by simp [Queues, hcall]
  rw [QueueStep] at hqueue
  rw [hqueues]
  constructor
  · intro hq
    rwa [if_pos hq] at hqueue
  · intro hq
    rwa [if_neg hq] at hqueue

/-- When an id is queued, the stale ids in the queue are made up for: with the workers of the pool
they number less than the capacity and the workers whose ids are held. -/
def HasRoom (s : WorkerPool) (a : ℕ × Action) : Prop :=
  s.Queues a → s.pool.size + s.stale < s.capacity + s.out

instance (s : WorkerPool) (a : ℕ × Action) : Decidable (s.HasRoom a) :=
  inferInstanceAs (Decidable (s.Queues a → s.pool.size + s.stale < s.capacity + s.out))

theorem capacity_of_step (h : s.step a = some s') : s'.capacity = s.capacity := by
  rw [capacity, capacity, maxWorkerJobs_of_step h]

theorem fitsChannel_step_iff (hinv : s.Inv) (hexact : s.desk.Exact) (habort : a.2 ≠ .abort)
    (hfits : s.FitsChannel) (h : s.step a = some s') : s'.FitsChannel ↔ s.HasRoom a := by
  have hcount := queued_add_out hexact
  obtain ⟨hmore, hless⟩ := length_queued_of_step hinv habort h
  rw [FitsChannel] at hfits ⊢
  rw [capacity_of_step h, HasRoom]
  by_cases hqueues : s.Queues a
  · rw [hmore hqueues, forall_prop_of_true hqueues]
    omega
  · have hle := hless hqueues
    simp only [hqueues, false_implies, iff_true]
    omega

theorem Populated.fitsChannel (h : Populated s₀) : s₀.FitsChannel := by
  obtain ⟨hcalls, _, hlength, _⟩ := h.spec
  rw [FitsChannel, queued, hcalls, capacity, List.filterMap_nil, List.append_nil, hlength]
  exact le_max_right ..

end Queue

end WorkerPool

end NpmFollower.BlobIdxServer.Job
