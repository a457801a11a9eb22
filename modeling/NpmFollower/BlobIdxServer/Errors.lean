import NpmFollower.BlobIdxServer.CleanerPairing
import NpmFollower.BlobIdxServer.KeySync

/-! # Calls that return an error

A call that returns an error has at most read entries of Redis into the map, but
for the unlock of a file that another node has locked: it has removed the lock.
-/

namespace NpmFollower.BlobIdxServer

open Std PostgresDb Runs

/-- The call may still return an error. -/
def Await.mayFail : Await → Bool
  | .redis (.checkKey ..) _ => true
  | .redis (.lookup _) _ => true
  | .keepAlive _ => true
  | _ => false

@[simp] theorem Await.mayFail_deaf (a : Await) : a.deaf.mayFail = a.mayFail := by cases a <;> rfl

theorem Redis.get_of_reply {r : Redis} {key : String} {v : Value}
    (h : (r.execute (.get key)).2 = .text (some v)) : r[key]? = some (.string v) := by
  rw [Redis.execute] at h
  split at h
  · cases h
  · rename_i heq
    cases h
    exact heq
  · cases h

namespace Server

/-- The map over Redis. -/
def entry (s : Server) (key : String) : Option LockWrapper :=
  match s.blob.map[key]? with
  | some l => some l
  | none =>
    match s.redis[key]? with
    | some (.string v) => LockWrapper.deserialize v
    | _ => none

/-- The locks, the files, the keys and the cleaners are as before. -/
structure Intact (s s' : Server) : Prop where
  lockedFiles : s'.blob.lockedFiles = s.blob.lockedFiles
  filePool : s'.blob.filePool = s.blob.filePool
  entry : ∀ key, s'.entry key = s.entry key
  cleanupTasks : s'.blob.cleanupTasks = s.blob.cleanupTasks
  cleaners : s'.cleaners = s.cleaners

/-- A call without others in between, and what it has returned. -/
inductive CallRun (s : Server) (r : Request) : Server → List Event → Prop where
  | start {s' : Server} {es : List Event} (h : s.step (.call r) = some (s', es)) :
      CallRun s r s' es
  | execute {s₁ s' : Server} {es : List Event} (run : CallRun s r s₁ [])
      (h : s₁.step (.execute s.nextCall) = some (s', es)) : CallRun s r s' es
  | resume {s₁ s' : Server} {es : List Event} {choice : UInt32} (run : CallRun s r s₁ [])
      (h : s₁.step (.resume s.nextCall choice) = some (s', es)) : CallRun s r s' es

/-- The unlock of a file that another node has locked. -/
def OfOtherNode (s : Server) : Request → Prop
  | .createUnlock fileId nodeId =>
    ∃ lock : FileLock, s.blob.lockedFiles[fileId]? = some lock ∧ lock.nodeId ≠ nodeId
  | _ => False

variable {s s' s₁ : Server} {t : CallId} {activity : Activity} {p : Progress}

theorem Intact.refl (s : Server) : Intact s s := ⟨rfl, rfl, fun _ => rfl, rfl, rfl⟩

theorem Intact.trans {s₁ s₂ s₃ : Server} (h : Intact s₁ s₂) (h' : Intact s₂ s₃) : Intact s₁ s₃ where
  lockedFiles := h'.lockedFiles.trans h.lockedFiles
  filePool := h'.filePool.trans h.filePool
  entry := fun key => (h'.entry key).trans (h.entry key)
  cleanupTasks := h'.cleanupTasks.trans h.cleanupTasks
  cleaners := h'.cleaners.trans h.cleaners

theorem entry_congr {key : String} (hblob : s'.blob = s.blob) (hredis : s'.redis[key]? = s.redis[key]?) :
    s'.entry key = s.entry key := by
  rw [entry, entry, hblob, hredis]

theorem intact_of_eq (hblob : s'.blob = s.blob) (hredis : s'.redis = s.redis)
    (hcleaners : s'.cleaners = s.cleaners) : Intact s s' where
  lockedFiles := by rw [hblob]
  filePool := by rw [hblob]
  entry := fun key => entry_congr hblob (by rw [hredis])
  cleanupTasks := by rw [hblob]
  cleaners := hcleaners

/-- An entry of Redis is read into the map. -/
theorem intact_insertKey {key : String} {v : Value} {l : LockWrapper}
    (habsent : s.blob.map[key]? = none) (hv : s.redis[key]? = some (.string v))
    (hl : LockWrapper.deserialize v = some l) : Intact s (s.insertKey key l) := by
  constructor
  case entry =>
    intro key'
    have hmap : (s.insertKey key l).blob.map[key']? =
        if key = key' then some l else s.blob.map[key']? := FiniteMap.getElem?_insert ..
    rw [entry, entry, hmap]
    split_ifs with hkey
    · rw [← hkey, habsent, hv]
      exact hl.symm
    · rfl
  all_goals rfl

theorem mayFail_marked {b : BlobStorage} {fileId : UInt32} {keys : List String}
    {toSet : List (String × Value)} (h : b.Marked fileId keys toSet p) :
    ∀ a, p = .waits a → a.mayFail = false := by
  cases h <;> rintro _ ⟨⟩ <;> rfl

theorem no_error_marked {b : BlobStorage} {fileId : UInt32} {keys : List String}
    {toSet : List (String × Value)} (h : b.Marked fileId keys toSet p) (e : BlobError) :
    p ≠ .returns (.error e) := by
  cases h <;> rintro ⟨⟩

theorem absent_checked {b : BlobStorage} {entries : List BlobEntry} {nodeId : String}
    {keys : List String} (h : b.Checked entries nodeId keys p) :
    ∀ a, p = .waits a → ∀ key ∈ a.asks, b.map[key]? = none := by
  cases h with
  | asks pre key rest hkeys hpre hkey hnone => rintro _ ⟨⟩ _ ⟨⟩; exact hnone
  | _ => rintro _ ⟨⟩ <;> rintro _ ⟨⟩

theorem absent_startLookup (b : BlobStorage) (key : String) :
    ∀ a, b.startLookup key = .waits a → ∀ key ∈ a.asks, b.map[key]? = none := by
  intro a ha key' hkey'
  rw [BlobStorage.startLookup] at ha
  split_ifs at ha
  split at ha
  · cases ha
  · rename_i hnone
    cases ha
    cases hkey'
    exact hnone

/-- A key that the call asks for is not in the map, and an answer is what Redis has. -/
def AsksCurrent (s : Server) (a : Await) : Prop :=
  ∀ key ∈ a.asks, s.blob.map[key]? = none ∧
    ∀ k reply, a = .redis k (some reply) → reply = (s.redis.execute (.get key)).2

/-- The call may return an error, or does. -/
def Failing (p : Progress) : Prop := (∃ a, p = .waits a ∧ a.mayFail) ∨ ∃ e, p = .returns (.error e)

theorem not_failing_marked {b : BlobStorage} {fileId : UInt32} {keys : List String}
    {toSet : List (String × Value)} (h : b.Marked fileId keys toSet p) : ¬Failing p := by
  cases h <;> rintro (⟨_, ⟨⟩, ⟨⟩⟩ | ⟨_, ⟨⟩⟩)

theorem not_failing_publish (b : BlobStorage) (entries : List BlobEntry) (nodeId : String)
    (fileId : UInt32) (needsCreation : Bool) (byteOffset : UInt64) (info : FileInfo) :
    ¬Failing (b.publish entries nodeId fileId needsCreation byteOffset info).2 := by
  rw [BlobStorage.publish_eq]
  rintro (⟨_, ⟨⟩, ⟨⟩⟩ | ⟨_, ⟨⟩⟩)

/-- A part of a call that may return an error, or does, has changed at most what has been read. -/
theorem Part.intact (h : Part s t activity s₁ p) (hp : Failing p)
    (hcurrent : ∀ a choice, activity = .resume a choice → a.mayFail → s.AsksCurrent a)
    (hnode : ∀ r, activity = .start r → ¬s.OfOtherNode r) :
    Intact s s₁ ∧ ∀ a, p = .waits a → ∀ key ∈ a.asks, s₁.blob.map[key]? = none := by
  cases h with
  | check hc => exact ⟨.refl s, absent_checked hc⟩
  | checkAbsent hc => exact ⟨.refl s, absent_checked hc⟩
  | checkLoaded hl hc =>
    obtain ⟨habsent, hreply⟩ := hcurrent _ _ rfl rfl _ rfl
    have hv := Redis.get_of_reply (hreply _ _ rfl).symm
    exact ⟨intact_insertKey habsent hv hl, absent_checked hc⟩
  | lookup => exact ⟨.refl s, absent_startLookup _ _⟩
  | lookupLoaded hl =>
    obtain ⟨habsent, hreply⟩ := hcurrent _ _ rfl rfl _ rfl
    have hv := Redis.get_of_reply (hreply _ _ rfl).symm
    exact ⟨intact_insertKey habsent hv hl, absent_startLookup _ _⟩
  | lookupAbsent => exact ⟨.refl s, by rintro _ ⟨⟩⟩
  | notLocked hlock => exact ⟨.refl s, by rintro _ ⟨⟩⟩
  | wrongNode hlock hother => exact absurd ⟨_, hlock, hother⟩ (hnode _ rfl)
  | keepAliveNone hlock => exact ⟨.refl s, by rintro _ ⟨⟩⟩
  | keepAliveSend hlock hcleaner => exact ⟨.refl s, by rintro _ ⟨⟩ _ ⟨⟩⟩
  | keepAliveExpired hnone => exact ⟨.refl s, by rintro _ ⟨⟩⟩
  | publish needsCreation byteOffset info => exact absurd hp (not_failing_publish _ _ _ _ _ _ _)
  | unlock hlock heq => exact absurd hp (not_failing_marked (BlobStorage.markKeys_marked _ _ _))
  | markLoaded hl => exact absurd hp (not_failing_marked (BlobStorage.markKeys_marked _ _ _))
  | _ => rcases hp with (⟨_, ⟨⟩, ⟨⟩⟩ | ⟨_, ⟨⟩⟩)

/-- A call that cannot fail any more does not fail. -/
theorem Part.mayFail (h : Part s t activity s₁ p) (hp : Failing p) :
    ∀ a choice, activity = .resume a choice → a.mayFail := by
  rintro a choice rfl
  cases h with
  | checkAbsent hc => rfl
  | checkLoaded hl hc => rfl
  | lookupLoaded hl => rfl
  | lookupAbsent => rfl
  | keepAliveExpired hnone => rfl
  | publish needsCreation byteOffset info => exact absurd hp (not_failing_publish _ _ _ _ _ _ _)
  | markLoaded hl => exact absurd hp (not_failing_marked (BlobStorage.markKeys_marked _ _ _))
  | _ => rcases hp with (⟨_, ⟨⟩, ⟨⟩⟩ | ⟨_, ⟨⟩⟩)

/-- What call `t` has done, if it may still fail or has. -/
structure Untouched (s s' : Server) (t : CallId) (es : List Event) : Prop where
  waiting : ∀ a, s'.At t a → a.mayFail → Intact s s' ∧ s'.AsksCurrent a
  failed : ∀ request e, es = [⟨t, request, .error e⟩] → Intact s s'

theorem Part.untouched {request : Request} {next : CallId} (h : Part s' t activity s₁ p)
    (hbefore : ∀ a choice, activity = .resume a choice → a.mayFail → Intact s s' ∧ s'.AsksCurrent a)
    (hstart : ∀ r, activity = .start r → s' = s ∧ ¬s.OfOtherNode r) :
    Untouched s (s₁.after t request next p) t
      (({ s₁ with nextCall := next } : Server).settle t request p).2 := by
  have hintact : Failing p → Intact s (s₁.after t request next p) ∧
      ∀ a, p = .waits a → ∀ key ∈ a.asks, s₁.blob.map[key]? = none := by
    intro hp
    obtain ⟨hpart, habsent⟩ := h.intact hp (fun a choice ha hfail => (hbefore a choice ha hfail).2)
      fun r hr => by rw [(hstart r hr).1]; exact (hstart r hr).2
    have hold : Intact s s' := by
      cases activity with
      | start r => rw [(hstart r rfl).1]; exact .refl s
      | resume a choice => exact (hbefore a choice rfl (h.mayFail hp a choice rfl)).1
    exact ⟨(hold.trans hpart).trans (intact_of_eq after_blob after_redis after_cleaners), habsent⟩
  constructor
  case waiting =>
    intro a hat hfail
    rw [at_after, if_pos rfl] at hat
    obtain ⟨a', rfl, rfl⟩ := hat
    rw [Await.mayFail_deaf] at hfail
    obtain ⟨hi, habsent⟩ := hintact (.inl ⟨a', rfl, hfail⟩)
    refine ⟨hi, fun key hkey => ?_⟩
    rw [Await.asks_deaf] at hkey
    rw [after_blob]
    refine ⟨habsent a' rfl key hkey, ?_⟩
    intro k reply ha
    cases a' <;> cases ha
    cases h.unsent _ _ rfl
  case failed =>
    intro request' e hes
    cases p with
    | waits a => cases hes
    | returns r =>
      cases hes
      exact (hintact (.inr ⟨e, rfl⟩)).1

theorem execute_get (r : Redis) (key : String) : (r.execute (.get key)).1 = r := by
  rw [Redis.execute]
  split <;> rfl

/-- A call that may still fail only reads. -/
theorem command_of_mayFail {k : Continuation} {reply : Option Reply}
    (h : (Await.redis k reply).mayFail) :
    ∃ key, k.command = .get key ∧ (Await.redis k reply).asks = some key := by
  cases k <;> cases h <;> exact ⟨_, rfl, rfl⟩

theorem CallRun.untouched {r : Request} {es : List Event} (hnode : ¬s.OfOtherNode r)
    (h : CallRun s r s' es) : Untouched s s' s.nextCall es := by
  induction h with
  | start hstep =>
    cases step_of_eq hstep with
    | part hruns part =>
      cases hruns
      exact part.untouched (by rintro _ _ ⟨⟩) (by rintro _ ⟨⟩; exact ⟨rfl, hnode⟩)
  | execute run hstep ih =>
    rename_i s₁ s' es
    cases step_of_eq hstep with
    | part hruns part => cases hruns
    | execute hcall =>
      rename_i request k
      refine ⟨?_, by rintro _ _ ⟨⟩⟩
      intro a hat hfail
      have ha : a = .redis k (some (s₁.redis.execute k.command).2) := by
        rw [At, executed, ExtTreeMap.getElem?_insert_self] at hat
        exact (Option.some.inj hat).symm
      subst ha
      obtain ⟨key, hk, hasks⟩ := command_of_mayFail hfail
      have hfail' : (Await.redis k none).mayFail := by cases k <;> exact hfail
      obtain ⟨hintact, hcurrent⟩ := ih.waiting _ (at_of_call hcall) hfail'
      have hredis : (s₁.executed s.nextCall request k).redis = s₁.redis := by
        rw [executed, hk, execute_get]
      refine ⟨hintact.trans (intact_of_eq rfl hredis rfl), fun key' hkey' => ?_⟩
      rw [hasks] at hkey'
      cases hkey'
      refine ⟨(hcurrent key (by cases k <;> exact hasks)).1, ?_⟩
      rintro k' reply ⟨⟩
      rw [hredis, hk]
  | resume run hstep ih =>
    rename_i s₁ s' es choice
    cases step_of_eq hstep with
    | part hruns part =>
      cases hruns with
      | resume hcall =>
        refine part.untouched ?_ (by rintro _ ⟨⟩)
        rintro a choice ⟨⟩ hfail
        have hat := at_of_call hcall
        rw [← Await.mayFail_deaf] at hfail
        obtain ⟨hintact, hcurrent⟩ := ih.waiting _ hat hfail
        refine ⟨hintact, fun key hkey => ?_⟩
        rw [← Await.asks_deaf] at hkey
        obtain ⟨habsent, hanswer⟩ := hcurrent key hkey
        refine ⟨habsent, fun k reply ha => hanswer k reply ?_⟩
        rw [ha]
        rfl

/-- The unlock of a file that another node has locked removes the lock. -/
theorem CallRun.removed {r : Request} {es : List Event} (hnode : s.OfOtherNode r)
    (h : CallRun s r s' es) : es ≠ [] ∧ s'.blob.lockedFiles ≠ s.blob.lockedFiles := by
  induction h with
  | start hstep =>
    cases r with
    | createUnlock fileId nodeId =>
      obtain ⟨lock, hlock, hother⟩ := hnode
      cases step_of_eq hstep with
      | part hruns part =>
        cases hruns
        cases part with
        | notLocked hnone => cases hnone.symm.trans hlock
        | unlock hlock' heq =>
          cases hlock'.symm.trans hlock
          exact absurd heq hother
        | wrongNode hlock' hother' =>
          refine ⟨by rintro ⟨⟩, fun heq => ?_⟩
          rw [after_blob] at heq
          have hremoved : (s.removeLock fileId).blob.lockedFiles[fileId]? = none :=
            ExtTreeMap.getElem?_erase_self
          rw [heq, hlock] at hremoved
          cases hremoved
    | _ => cases hnode
  | execute run hstep ih => exact absurd rfl ih.1
  | resume run hstep ih => exact absurd rfl ih.1

/-- A call that returns an error leaves everything as it was, unless it is the unlock of a file that
another node has locked. -/
theorem intact_iff {r : Request} {e : BlobError}
    (hcall : CallRun s r s' [⟨s.nextCall, r, .error e⟩]) : Intact s s' ↔ ¬s.OfOtherNode r := by
  constructor
  · intro hintact hnode
    exact (hcall.removed hnode).2 hintact.lockedFiles
  · intro hnode
    exact (hcall.untouched hnode).failed r e rfl

/-- The response of a call that returns at once. -/
def answerOf (s : Server) (r : Request) : Option (List Event) := (s.step (.call r)).map Prod.snd

theorem exists_callRun {r : Request} {es : List Event} (h : s.answerOf r = some es) :
    ∃ s', CallRun s r s' es := by
  obtain ⟨⟨s', es'⟩, hstep, rfl⟩ := Option.map_eq_some_iff.mp h
  exact ⟨s', .start hstep⟩

/-- A second creation of the key. -/
theorem intact_iff_createdTwice : ∃ s₀ es s s', boot ⟨1⟩ ∅ 0 = some s₀ ∧
    Run Server.step (fun _ _ => True) s₀ es s ∧
      CallRun s (.createAndLock [⟨"a", 2⟩] "other") s'
        [⟨1, .createAndLock [⟨"a", 2⟩] "other", .error (.alreadyExists "a")⟩] ∧ Intact s s' := by
  obtain ⟨s₀, hboot, hexec⟩ := Option.bind_eq_some_iff.mp
    (show ((boot ⟨1⟩ ∅ 0).bind fun s₀ => (exec Server.step (fun _ _ => True) s₀ creation).map
      fun r => (r.1.nextCall, r.1.answerOf (.createAndLock [⟨"a", 2⟩] "other"))) =
        some (1, some [⟨1, .createAndLock [⟨"a", 2⟩] "other", .error (.alreadyExists "a")⟩]) by
          decide +kernel)
  obtain ⟨s, es, hrun, hend⟩ := exists_run_of_exec hexec
  simp only [Prod.mk.injEq] at hend
  obtain ⟨s', hcall⟩ := exists_callRun hend.2
  have hcall' := hcall
  rw [← hend.1] at hcall'
  exact ⟨s₀, es, s, s', hboot, hrun, hcall, (intact_iff hcall').mpr id⟩

/-- The lock is gone after the unlock by another node, which was answered with an error. -/
theorem not_intact_wrongNode : ∃ s₀ es s s', boot ⟨1⟩ ∅ 0 = some s₀ ∧
    Run Server.step (fun _ _ => True) s₀ es s ∧
      CallRun s (.createUnlock 0 "other") s' [⟨1, .createUnlock 0 "other", .error .wrongNode⟩] ∧
        ¬Intact s s' := by
  obtain ⟨s₀, hboot, hexec⟩ := Option.bind_eq_some_iff.mp
    (show ((boot ⟨1⟩ ∅ 0).bind fun s₀ => (exec Server.step (fun _ _ => True) s₀ creation).map
      fun r => (r.1.blob.lockedFiles[(0 : UInt32)]?, r.1.answerOf (.createUnlock 0 "other"))) =
        some (some ⟨"node", ["a"], 0⟩,
          some [⟨1, .createUnlock 0 "other", .error .wrongNode⟩]) by decide +kernel)
  obtain ⟨s, es, hrun, hend⟩ := exists_run_of_exec hexec
  simp only [Prod.mk.injEq] at hend
  obtain ⟨s', hcall⟩ := exists_callRun hend.2
  have hnode : s.OfOtherNode (.createUnlock 0 "other") := ⟨_, hend.1, by decide⟩
  have hremoved := hcall.removed hnode
  exact ⟨s₀, es, s, s', hboot, hrun, hcall, fun hintact => hremoved.2 hintact.lockedFiles⟩

end Server

end NpmFollower.BlobIdxServer
