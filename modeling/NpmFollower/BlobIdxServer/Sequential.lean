import NpmFollower.Library.Runs
import NpmFollower.BlobIdxServer.FileLocks
import NpmFollower.BlobIdxServer.FilePool

/-! # Calls one after the other

In a sequence of calls at most one waits for Redis, others for a file at most.
What the memory says can then be compared with what Redis will hold when it has
executed the one command that may be on its way.
-/

namespace NpmFollower.BlobIdxServer

open Std PostgresDb Runs

/-- Redis after the command that a call has sent. -/
def Progress.flush (p : Progress) (r : Redis) : Redis :=
  match p with
  | .waits (.redis k _) => (r.execute k.command).1
  | _ => r

namespace Server

variable (s : Server)

/-- No call waits for Redis, but for the given one. -/
def RedisIdle (except : Option CallId) : Prop :=
  ∀ e ∈ s.calls.toList, e.2.await.isRedis → some e.1 = except

/-- A call starts, or goes on, and the server is started again, when no other call waits for
Redis. -/
def Alone : Action → Prop
  | .call _ => s.RedisIdle none
  | .resume t _ => s.RedisIdle (some t)
  | .restart _ => s.RedisIdle none
  | _ => True

instance (except : Option CallId) : Decidable (s.RedisIdle except) := by
  unfold RedisIdle
  infer_instance

instance : (a : Action) → Decidable (s.Alone a)
  | .call _ | .restart _ => inferInstanceAs (Decidable (s.RedisIdle none))
  | .resume t _ => inferInstanceAs (Decidable (s.RedisIdle (some t)))
  | .execute _ | .tick _ | .receive _ => isTrue trivial

/-- Redis after the commands that it has not executed yet. -/
inductive Flushed : Redis → Prop where
  | pending {t : CallId} {k : Continuation} (hat : s.At t (.redis k none)) :
      Flushed (s.redis.execute k.command).1
  | settled (hnone : ∀ t k, ¬s.At t (.redis k none)) : Flushed s.redis

/-- At most one call waits for Redis, and an answer is what Redis has given. -/
structure AloneInv : Prop where
  fresh : s.Fresh
  expected : s.Expected
  single : ∀ t t' a a', s.At t a → s.At t' a' → a.isRedis → a'.isRedis → t = t'
  answered : ∀ t a, s.At t a → ∀ k reply, a = .redis k (some reply) →
    ∃ r : Redis, (r.execute k.command).2 = reply ∧ (r.execute k.command).1 = s.redis

variable {s} {s₁ : Server} {t : CallId} {request : Request} {activity : Activity} {p : Progress}
  {action : Action} {next : CallId}

theorem RedisIdle.eq {except : Option CallId} (h : s.RedisIdle except) {a : Await}
    (hat : s.At t a) (ha : a.isRedis) : some t = except := by
  obtain ⟨c, hcall, rfl⟩ := Option.map_eq_some_iff.mp hat
  rw [Await.isRedis_deaf] at ha
  exact h (t, c) (ExtTreeMap.mem_toList_iff_getElem?_eq_some.mpr hcall) ha

/-- When a call does a part, the others do not wait for Redis. -/
theorem Runs.others_idle (hruns : Runs s action t request activity next) (halone : s.Alone action)
    {t' : CallId} {a : Await} (ht : t ≠ t') (hat : s.At t' a) : a.isRedis = false := by
  by_contra ha
  rw [Bool.not_eq_false] at ha
  cases hruns with
  | start => cases RedisIdle.eq halone hat ha
  | resume => exact ht (Option.some.inj (RedisIdle.eq halone hat ha)).symm

theorem unsent_checked {b : BlobStorage} {entries : List BlobEntry} {nodeId : String}
    {keys : List String} (h : b.Checked entries nodeId keys p) :
    ∀ k reply, p = .waits (.redis k reply) → reply = none := by
  cases h with
  | asks => rintro _ _ ⟨⟩; rfl
  | _ => rintro _ _ ⟨⟩

theorem unsent_marked {b : BlobStorage} {fileId : UInt32} {keys : List String}
    {toSet : List (String × Value)} (h : b.Marked fileId keys toSet p) :
    ∀ k reply, p = .waits (.redis k reply) → reply = none := by
  cases h <;> rintro _ _ ⟨⟩ <;> rfl

theorem unsent_startLookup (b : BlobStorage) (key : String) :
    ∀ k reply, b.startLookup key = .waits (.redis k reply) → reply = none := by
  intro k reply h
  rw [BlobStorage.startLookup] at h
  split_ifs at h
  split at h <;> cases h
  rfl

/-- A call that begins to wait for Redis has no answer yet. -/
theorem Part.unsent (h : Part s t activity s₁ p) :
    ∀ k reply, p = .waits (.redis k reply) → reply = none := by
  cases h with
  | check hp => exact unsent_checked hp
  | checkAbsent hp => exact unsent_checked hp
  | checkLoaded hl hp => exact unsent_checked hp
  | publish needsCreation byteOffset info =>
    rw [BlobStorage.publish_eq]
    rintro _ _ ⟨⟩
    rfl
  | unlock hlock hnode => exact unsent_marked (BlobStorage.markKeys_marked _ _ _)
  | markLoaded hl => exact unsent_marked (BlobStorage.markKeys_marked _ _ _)
  | lookup => exact unsent_startLookup _ _
  | lookupLoaded hl => exact unsent_startLookup _ _
  | _ => rintro _ _ ⟨⟩ <;> rfl

theorem Part.not_pending (h : Part s t activity s₁ p)
    (hruns : Runs s action t request activity next) (halone : s.Alone action) (hs : s.Fresh) :
    ∀ t' k, ¬s.At t' (.redis k none) := by
  intro t' k hat
  by_cases ht : t = t'
  · subst ht
    cases hruns with
    | start => exact lt_irrefl _ (hs _ _ hat)
    | resume hcall =>
      rename_i c
      rw [At, hcall] at hat
      obtain ⟨request', await⟩ := c
      cases await <;> cases hat
      cases h
  · cases hruns.others_idle halone ht hat

theorem Part.flushed (h : Part s t activity s₁ p) (hruns : Runs s action t request activity next)
    (halone : s.Alone action) (hs : s.Fresh) :
    (s₁.after t request next p).Flushed (p.flush s.redis) := by
  have hothers : ∀ t' k, t ≠ t' → ¬s₁.At t' (.redis k none) :=
    fun t' k _ hat => h.not_pending hruns halone hs t' k (h.at_iff.mp hat)
  have hredis : (s₁.after t request next p).redis = s.redis := by
    rw [after_redis, h.redis_eq]
  by_cases hsent : ∃ k reply, p = .waits (.redis k reply)
  · obtain ⟨k, reply, rfl⟩ := hsent
    cases h.unsent k reply rfl
    rw [Progress.flush, ← hredis]
    refine .pending (t := t) ?_
    rw [at_after, if_pos rfl]
    exact ⟨_, rfl, rfl⟩
  · have hflush : p.flush s.redis = s.redis := by
      cases p with
      | returns r => rfl
      | waits a =>
        cases a with
        | redis k reply => exact absurd ⟨k, reply, rfl⟩ hsent
        | _ => rfl
    rw [hflush, ← hredis]
    refine .settled fun t' k hat => ?_
    rw [at_after] at hat
    split_ifs at hat with ht
    · obtain ⟨a, hp, ha⟩ := hat
      cases a <;> cases ha
      exact hsent ⟨_, _, hp⟩
    · exact hothers t' k ht hat

theorem AloneInv.step (hs : s.AloneInv) {a : Action} (halone : s.Alone a) {s' : Server}
    {es : List Event} (h : s.step a = some (s', es)) : s'.AloneInv := by
  have hfresh := (step_of_eq h).fresh hs.fresh
  have hexpected := (step_of_eq h).expected hs.expected
  cases step_of_eq h with
  | part hruns part =>
    rename_i t request activity next s₁ p
    refine ⟨hfresh, hexpected, ?_, ?_⟩
    · have hown : ∀ t' a, (s₁.after t request next p).At t' a → a.isRedis → t = t' :=
        part.forall_at (fun t' a ht hat ha => by simp [hruns.others_idle halone ht hat] at ha)
          fun _ _ _ => rfl
      intro t' t'' a a' hat hat' ha ha'
      exact (hown t' a hat ha).symm.trans (hown t'' a' hat' ha')
    · rw [after_redis, part.redis_eq]
      refine part.forall_at (fun t' a _ => hs.answered t' a) fun a hp k reply ha => ?_
      cases a <;> cases ha
      cases part.unsent _ _ hp
  | execute hcall =>
    rename_i t request k
    have hat := at_of_call hcall
    have hold : ∀ t' (a : Await), (s.executed t request k).At t' a → a.isRedis →
        ∃ a' : Await, s.At t' a' ∧ a'.isRedis :=
      forall_at_execute (fun t' a _ hat' ha => ⟨a, hat', ha⟩) fun _ => ⟨_, hat, rfl⟩
    refine ⟨hfresh, hexpected, ?_, ?_⟩
    · intro t' t'' a a' hat' hat'' ha ha'
      obtain ⟨b, hb, hbr⟩ := hold t' a hat' ha
      obtain ⟨b', hb', hbr'⟩ := hold t'' a' hat'' ha'
      exact hs.single _ _ _ _ hb hb' hbr hbr'
    · refine forall_at_execute ?_ ?_
      · intro t' a ht hat' k' reply ha
        exact absurd (hs.single _ _ _ _ hat hat' rfl (by rw [ha]; rfl)) ht
      · rintro k' reply ⟨⟩
        exact ⟨s.redis, rfl, rfl⟩
  | expire =>
    refine ⟨hfresh, hexpected, ?_, ?_⟩
    · intro t t' a a' hat hat'
      exact hs.single t t' a a' ((at_notifyWaiters _).mp hat) ((at_notifyWaiters _).mp hat')
    · exact fun t a hat => hs.answered t a ((at_notifyWaiters _).mp hat)
  | stop => exact ⟨hfresh, hexpected, hs.single, hs.answered⟩
  | receive => exact ⟨hfresh, hexpected, hs.single, hs.answered⟩
  | restart hboot =>
    exact ⟨hfresh, hexpected, fun t _ _ _ hat => absurd hat (not_at_boot hboot),
      fun t a hat => absurd hat (not_at_boot hboot)⟩

theorem aloneInv_boot {config : BlobStorageConfig} {redis : Redis} {n : CallId}
    (h : boot config redis n = some s) : s.AloneInv :=
  ⟨fresh_boot h, expected_boot h, fun _ _ _ _ hat => absurd hat (not_at_boot h),
    fun _ _ hat => absurd hat (not_at_boot h)⟩

theorem flushed_boot {config : BlobStorageConfig} {redis : Redis} {n : CallId}
    (h : boot config redis n = some s) {r : Redis} (hr : s.Flushed r) : r = redis := by
  have hat : ∀ t a, ¬s.At t a := fun t a => not_at_boot h
  obtain ⟨b, -, rfl⟩ := Option.map_eq_some_iff.mp h
  cases hr with
  | pending hpending => exact absurd hpending (hat _ _)
  | settled => rfl

theorem AloneInv.flushed_eq (hs : s.AloneInv) {r r' : Redis} (h : s.Flushed r) (h' : s.Flushed r') :
    r = r' := by
  cases h with
  | pending hat =>
    cases h' with
    | pending hat' =>
      cases hs.single _ _ _ _ hat hat' rfl rfl
      cases Option.some.inj (hat.symm.trans hat')
      rfl
    | settled hnone => exact absurd hat (hnone _ _)
  | settled hnone =>
    cases h' with
    | pending hat' => exact absurd hat' (hnone _ _)
    | settled => rfl

/-- What a step keeps of a relation between the memory and the flushed Redis. -/
theorem AloneInv.flushed_step {J : BlobStorage → Redis → Prop} (hs : s.AloneInv)
    (hJ : ∀ r, s.Flushed r → J s.blob r) {a : Action} (halone : s.Alone a) {s' : Server}
    {es : List Event} (h : s.step a = some (s', es))
    (hpart : ∀ {t request activity next s₁ p}, Runs s a t request activity next →
      Part s t activity s₁ p → J s.blob s.redis → J s₁.blob (p.flush s.redis))
    (hexpire : ∀ fileId r, J s.blob r →
      J { s.blob with lockedFiles := s.blob.lockedFiles.erase fileId } r)
    (hrestart : ∀ config b, J s.blob s.redis → BlobStorage.init config s.redis = some b →
      J b s.redis) : ∀ r, s'.Flushed r → J s'.blob r := by
  have hs' := hs.step halone h
  intro r hr
  cases step_of_eq h with
  | part hruns part =>
    cases hs'.flushed_eq hr (part.flushed hruns halone hs.fresh)
    rw [after_blob]
    exact hpart hruns part (hJ _ (.settled (part.not_pending hruns halone hs.fresh)))
  | execute hcall =>
    rename_i t request k
    have hat := at_of_call hcall
    apply hJ
    cases hr with
    | pending hpending =>
      rename_i t' k'
      have hnot : ∀ t' (a : Await), (s.executed t request k).At t' a →
          ∀ k', a ≠ .redis k' none := by
        refine forall_at_execute ?_ (by rintro _ ⟨⟩)
        rintro t' a ht hat' k' rfl
        exact ht (hs.single _ _ _ _ hat hat' rfl rfl)
      exact absurd rfl (hnot _ _ hpending k')
    | settled => exact .pending hat
  | expire =>
    apply hexpire
    apply hJ
    cases hr with
    | pending hpending => exact .pending ((at_notifyWaiters _).mp hpending)
    | settled hnone => exact .settled fun t k hat => hnone t k ((at_notifyWaiters _).mpr hat)
  | stop =>
    apply hJ
    cases hr with
    | pending hpending => exact .pending hpending
    | settled hnone => exact .settled hnone
  | receive =>
    apply hJ
    cases hr with
    | pending hpending => exact .pending hpending
    | settled hnone => exact .settled hnone
  | restart hboot =>
    cases flushed_boot hboot hr
    obtain ⟨b, hinit, rfl⟩ := Option.map_eq_some_iff.mp hboot
    refine hrestart _ b (hJ _ (.settled fun t k hat => ?_)) hinit
    cases RedisIdle.eq halone hat rfl

end Server

end NpmFollower.BlobIdxServer
