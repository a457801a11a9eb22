import NpmFollower.BlobIdxServer.Errors

/-! # The reserved key

The key of the file pool is skipped by the checks of a batch, so a batch with it
is refused for its other keys alone. When every such batch is refused, Redis
holds the file pool under that key at all times.
-/

namespace NpmFollower.BlobIdxServer

open Std PostgresDb Runs

/-- The request unlocks a file or looks a key up. -/
def Request.reads : Request → Bool
  | .createUnlock .. => true
  | .lookup _ => true
  | _ => false

namespace Server

/-- The batch is refused: two of its keys are the same, or one of those to be checked has an entry
that is written or in a locked file. -/
def Refuses (s : Server) (entries : List BlobEntry) (keys : List String) : Prop :=
  ¬(keysOf entries).Nodup ∨ ∃ key ∈ keys, key ≠ filePoolKey ∧
    (s.entry key).any fun l => (s.blob.rejection key l).isSome

instance (s : Server) (entries : List BlobEntry) (keys : List String) :
    Decidable (s.Refuses entries keys) := by
  unfold Refuses
  infer_instance

/-- Calls one after the other, with timers that expire between them. -/
def InSequence (s : Server) (a : Action) : Prop :=
  s.Alone a ∧ match a with
    | .tick _ => s.RedisIdle none
    | _ => True

/-- A batch with the reserved key is refused for another reason, and no lock of an empty batch is
unlocked. -/
def KeyGuarded (s : Server) : Action → Prop
  | .call (.createAndLock entries _) =>
    filePoolKey ∈ keysOf entries → s.Refuses entries (keysOf entries)
  | .call (.createUnlock fileId nodeId) =>
    ∀ lock ∈ s.blob.lockedFiles[fileId]?, lock.nodeId = nodeId → lock.keys ≠ []
  | _ => True

instance (s : Server) : (a : Action) → Decidable (s.InSequence a)
  | .tick cleaner => inferInstanceAs (Decidable (s.Alone (.tick cleaner) ∧ s.RedisIdle none))
  | .call request => inferInstanceAs (Decidable (s.Alone (.call request) ∧ True))
  | .execute t => inferInstanceAs (Decidable (s.Alone (.execute t) ∧ True))
  | .resume t choice => inferInstanceAs (Decidable (s.Alone (.resume t choice) ∧ True))
  | .receive cleaner => inferInstanceAs (Decidable (s.Alone (.receive cleaner) ∧ True))
  | .restart config => inferInstanceAs (Decidable (s.Alone (.restart config) ∧ True))

instance (s : Server) : (a : Action) → Decidable (s.KeyGuarded a)
  | .call (.createAndLock entries _) =>
    inferInstanceAs (Decidable (filePoolKey ∈ keysOf entries → s.Refuses entries (keysOf entries)))
  | .call (.createUnlock fileId nodeId) => inferInstanceAs
    (Decidable (∀ lock ∈ s.blob.lockedFiles[fileId]?, lock.nodeId = nodeId → lock.keys ≠ []))
  | .call (.keepAliveLock _) | .call (.lookup _) => isTrue trivial
  | .execute _ | .resume _ _ | .tick _ | .receive _ | .restart _ => isTrue trivial

variable {s s₁ : Server} {t : CallId} {request : Request} {activity : Activity} {p : Progress}
  {action : Action} {next : CallId} {entries : List BlobEntry} {nodeId : String}
  {keys : List String}

section Refused

theorem refuses_congr {s' : Server} (hentry : ∀ key, s'.entry key = s.entry key)
    (hlocked : s'.blob.lockedFiles = s.blob.lockedFiles) (h : s.Refuses entries keys) :
    s'.Refuses entries keys := by
  refine h.imp_right ?_
  rintro ⟨key, hmem, hkey, hl⟩
  refine ⟨key, hmem, hkey, ?_⟩
  rw [hentry]
  have hrejection : ∀ l : LockWrapper, s'.blob.rejection key l = s.blob.rejection key l := by
    intro l
    rw [BlobStorage.rejection, BlobStorage.rejection, hlocked]
  simpa only [hrejection] using hl

/-- The checks do not pass a batch that is refused. -/
theorem refuses_checked (h : s.blob.Checked entries nodeId keys p) (hs : s.Refuses entries keys) :
    (∃ e, p = .returns (.error e)) ∨ ∃ key rest,
      p = .waits (.redis (.checkKey entries nodeId key rest) none) ∧ s.blob.map[key]? = none ∧
        s.Refuses entries (key :: rest) := by
  have hfree : ∀ key ≠ filePoolKey, s.blob.Free key →
      ¬(s.entry key).any fun l => (s.blob.rejection key l).isSome := by
    rintro key hkey (heq | ⟨l, hl, hrejection⟩)
    · exact absurd heq hkey
    · simp [entry, hl, hrejection]
  cases h with
  | passed hall hkeys =>
    rcases hs with hdup | ⟨key, hmem, hkey, hl⟩
    · exact absurd hkeys hdup
    · exact absurd hl (hfree key hkey (hall key hmem))
  | duplicate hkeys => exact .inl ⟨_, rfl⟩
  | rejected hmem hkey hl hrejected => exact .inl ⟨_, rfl⟩
  | asks pre key rest hkeys hpre hkey hnone =>
    refine .inr ⟨key, rest, rfl, hnone, hs.imp_right ?_⟩
    rintro ⟨key', hmem, hkey', hl⟩
    rw [hkeys] at hmem
    rcases List.mem_append.mp hmem with hmem | hmem
    · exact absurd hl (hfree key' hkey' (hpre key' hmem))
    · exact ⟨key', hmem, hkey', hl⟩

/-- A key that Redis does not have refuses nothing. -/
theorem Refuses.tail {key : String} {rest : List String} (h : s.Refuses entries (key :: rest))
    (hnone : s.entry key = none) : s.Refuses entries rest := by
  refine h.imp_right ?_
  rintro ⟨key', hmem, hkey', hl⟩
  rcases List.mem_cons.mp hmem with rfl | hmem
  · rw [hnone] at hl
    cases hl
  · exact ⟨key', hmem, hkey', hl⟩

/-- A call that checks a batch which will be refused. -/
def Rejecting (s : Server) (entries : List BlobEntry) (a : Await) : Prop :=
  ∃ nodeId key rest reply, a = .redis (.checkKey entries nodeId key rest) reply ∧
    s.AsksCurrent a ∧ s.Refuses entries (key :: rest)

theorem rejecting_checked (h : s.blob.Checked entries nodeId keys p)
    (hs : s.Refuses entries keys) :
    (∃ e, p = .returns (.error e)) ∨ ∃ a, p = .waits a ∧ s.Rejecting entries a := by
  refine (refuses_checked h hs).imp_right ?_
  rintro ⟨key, rest, rfl, hnone, hrest⟩
  refine ⟨_, rfl, nodeId, key, rest, none, rfl, ?_, hrest⟩
  rintro _ ⟨⟩
  exact ⟨hnone, by rintro _ _ ⟨⟩⟩

theorem entry_of_absent {key : String} (habsent : s.blob.map[key]? = none)
    (hreply : (s.redis.execute (.get key)).2 = .text none) : s.entry key = none := by
  rw [entry, habsent]
  rw [Redis.execute] at hreply
  cases hr : s.redis[key]? with
  | none => rfl
  | some v =>
    rw [hr] at hreply
    cases v <;> cases hreply

/-- A call does not panic on an entry that can be read. -/
theorem not_breaks_get {r : Redis} {key : String} {rest : List String}
    (h : ∀ v, r[key]? = some v →
      ∃ text l, v = .string text ∧ LockWrapper.deserialize text = some l) :
    ¬Breaks (r.execute (.get key)).2 (.checkKey entries nodeId key rest) := by
  intro hbreaks
  cases hr : r[key]? with
  | none =>
    obtain ⟨text, ⟨⟩, -⟩ := hbreaks none (by rw [Redis.execute, hr])
  | some v =>
    obtain ⟨text, l, rfl, hread⟩ := h v hr
    obtain ⟨text', heq, hnone⟩ := hbreaks (some text) (by rw [Redis.execute, hr])
    cases heq
    cases hread.symm.trans hnone

/-- A part of a creation that will be refused. -/
theorem Part.rejecting (h : Part s t activity s₁ p)
    (hof : activity.Of (.createAndLock entries nodeId))
    (hstart : activity = .start (.createAndLock entries nodeId) → s.Refuses entries (keysOf entries))
    (hresume : ∀ a choice, activity = .resume a choice → s.Rejecting entries a)
    (hreadable : ∀ a choice, activity = .resume a choice → ∀ key ∈ a.asks, ∀ v,
      s.redis[key]? = some v → ∃ text l, v = .string text ∧ LockWrapper.deserialize text = some l) :
    (∃ e, p = .returns (.error e)) ∨ ∃ a, p = .waits a ∧ s₁.Rejecting entries a := by
  cases hof with
  | start =>
    cases h with
    | check hc => exact rejecting_checked hc (hstart rfl)
  | resume hexpects =>
    obtain ⟨nodeId', key, rest, reply, rfl, hcurrent, hrefuses⟩ := hresume _ _ rfl
    obtain ⟨habsent, hreply⟩ := hcurrent key rfl
    cases h with
    | checkAbsent hc =>
      exact rejecting_checked hc (hrefuses.tail (entry_of_absent habsent (hreply _ _ rfl).symm))
    | checkLoaded hl hc =>
      have hv := Redis.get_of_reply (hreply _ _ rfl).symm
      have hintact := intact_insertKey habsent hv hl
      exact rejecting_checked hc (refuses_congr hintact.entry hintact.lockedFiles hrefuses)
    | broken hbreaks =>
      rw [hreply _ _ rfl] at hbreaks
      exact absurd hbreaks (not_breaks_get (hreadable _ _ rfl key rfl))

end Refused

section Pool

/-- The files that are locked, or being unlocked, are in the pool. -/
structure FilesKnown (s : Server) : Prop where
  locked : ∀ (fileId : UInt32) (lock : FileLock), s.blob.lockedFiles[fileId]? = some lock →
    fileId ∈ s.blob.filePool
  unlocking : ∀ t a, s.At t a → ∀ fileId, a.unlocks = some fileId → fileId ∈ s.blob.filePool

theorem Part.mem_filePool (h : Part s t activity s₁ p) {fileId : UInt32}
    (hfile : fileId ∈ s.blob.filePool) : fileId ∈ s₁.blob.filePool := by
  cases h.poolMove with
  | same hpool => exact hpool ▸ hfile
  | add entries nodeId hsize hpool =>
    rw [hpool]
    exact FiniteMap.mem_insert.mpr (.inr hfile)
  | grow entries nodeId id info needsCreation hinfo hpool =>
    rw [hpool]
    exact FiniteMap.mem_insert.mpr (.inr hfile)

/-- A file that is locked is in the pool. -/
theorem Part.mem_of_locks (h : Part s t activity s₁ p) {fileId : UInt32} {lock : FileLock}
    (hlock : s₁.blob.lockedFiles[fileId]? = some lock)
    (hnot : s.blob.lockedFiles[fileId]? ≠ some lock) : fileId ∈ s₁.blob.filePool := by
  have hacquire : ∀ {entries nodeId file}, (s₁.blob.lockedFiles =
      (s.acquire t entries nodeId file).blob.lockedFiles) → file ∈ s₁.blob.filePool →
        fileId ∈ s₁.blob.filePool := by
    intro entries nodeId file heq hfile
    have hinsert : (s.acquire t entries nodeId file).blob.lockedFiles =
        s.blob.lockedFiles.insert file ⟨nodeId, keysOf entries, t⟩ := rfl
    rw [heq, hinsert, FiniteMap.getElem?_insert] at hlock
    split_ifs at hlock with hid
    · exact hid ▸ hfile
    · exact absurd hlock hnot
  have herase : ∀ {file}, s₁.blob.lockedFiles = s.blob.lockedFiles.erase file →
      fileId ∈ s₁.blob.filePool := by
    intro file heq
    rw [heq, FiniteMap.getElem?_erase] at hlock
    split_ifs at hlock
    exact absurd hlock hnot
  cases h with
  | pickNew hlock' hsize hfile => exact hacquire rfl (FiniteMap.mem_insert.mpr (.inl rfl))
  | pickFree hlock' hsize hfree hinfo => exact hacquire rfl (FiniteMap.mem_insert.mpr (.inl rfl))
  | notified hinfo => exact hacquire rfl (FiniteMap.mem_insert.mpr (.inl rfl))
  | publish needsCreation byteOffset info =>
    rw [BlobStorage.publish_eq] at hlock
    exact absurd hlock hnot
  | wrongNode hlock' hnode => exact herase rfl
  | unlock hlock' hnode => exact herase (BlobStorage.markKeys_lockedFiles _ _ _)
  | markLoaded hl =>
    change (BlobStorage.markKeys _ _ _ _).1.lockedFiles[fileId]? = some lock at hlock
    rw [BlobStorage.markKeys_lockedFiles] at hlock
    exact absurd hlock hnot
  | unlocked hinfo =>
    rw [abortCleaner_eq] at hlock
    exact absurd hlock hnot
  | unlockedNone hnone =>
    rw [abortCleaner_eq] at hlock
    exact absurd hlock hnot
  | _ => exact absurd hlock hnot

theorem FilesKnown.part (hs : s.FilesKnown) (hruns : Runs s action t request activity next)
    (h : Part s t activity s₁ p) : (s₁.after t request next p).FilesKnown := by
  constructor
  case locked =>
    rw [after_blob]
    intro fileId lock hlock
    by_cases hold : s.blob.lockedFiles[fileId]? = some lock
    · exact h.mem_filePool (hs.locked fileId lock hold)
    · exact h.mem_of_locks hlock hold
  case unlocking =>
    rw [after_blob]
    refine h.forall_at (fun t' a _ hat fileId hfile => h.mem_filePool (hs.unlocking t' a hat fileId hfile))
      fun a hp fileId hfile => ?_
    rw [Await.unlocks_deaf] at hfile
    apply h.mem_filePool
    cases h.lockMove with
    | same hlocked htasks hrunning hunlocks =>
      obtain ⟨a₀, choice, rfl, ha₀⟩ := hunlocks a hp fileId hfile
      exact hs.unlocking t _ hruns.at_resume fileId (by rwa [Await.unlocks_deaf])
    | take hpicks hbatch hlocked htasks hrunning hholds =>
      cases hp
      rw [hholds.1] at hfile
      cases hfile
    | release hlock hlocked htasks hrunning hunlocks =>
      cases hfile.symm.trans (hunlocks a hp).1
      exact hs.locked _ _ hlock
    | abort => cases hp

theorem FilesKnown.step (hs : s.FilesKnown) {a : Action} {s' : Server} {es : List Event}
    (h : Step s a s' es) : s'.FilesKnown := by
  cases h with
  | part hruns part => exact hs.part hruns part
  | execute hcall =>
    rename_i t request k
    refine ⟨hs.locked, forall_at_execute (fun t' a _ => hs.unlocking t' a) fun fileId hfile => ?_⟩
    rw [Await.unlocks_redis] at hfile
    exact hs.unlocking t _ (at_of_call hcall) fileId hfile
  | expire hcleaner hlock =>
    constructor
    case locked =>
      intro fileId lock hlock'
      change (s.blob.lockedFiles.erase _)[fileId]? = some lock at hlock'
      rw [FiniteMap.getElem?_erase] at hlock'
      split_ifs at hlock'
      exact hs.locked fileId lock hlock'
    case unlocking => exact fun t a hat => hs.unlocking t a ((at_notifyWaiters _).mp hat)
  | stop => exact ⟨hs.locked, hs.unlocking⟩
  | receive => exact ⟨hs.locked, hs.unlocking⟩
  | restart hboot =>
    refine ⟨?_, fun t a hat => absurd hat (not_at_boot hboot)⟩
    obtain ⟨b, hinit, rfl⟩ := Option.map_eq_some_iff.mp hboot
    simp [(init_forgets hinit).2.1]

theorem filesKnown_boot {config : BlobStorageConfig} {redis : Redis} {n : CallId}
    (h : boot config redis n = some s) : s.FilesKnown := by
  refine ⟨?_, fun t a hat => absurd hat (not_at_boot h)⟩
  obtain ⟨b, hinit, rfl⟩ := Option.map_eq_some_iff.mp h
  simp [(init_forgets hinit).2.1]

end Pool

section Texts

/-- The entries of the files in Redis are those that `add_to_redis_filepool` writes. -/
def PoolTexts (r : Redis) : Prop :=
  ∀ fields, r[filePoolKey]? = some (.hash fields) → ∀ (fileId : UInt32) (text : Value),
    fields[fileId]? = some text → ∃ info : FileInfo, text = info.serialize ∧ info.fileId = fileId

theorem poolTexts_execute {r : Redis} (h : PoolTexts r) (k : Continuation) :
    PoolTexts (r.execute k.command).1 := by
  intro fields hfields fileId text htext
  by_cases hcalm : r.Clobbered
  · obtain ⟨text', htext'⟩ := hcalm.execute k.command
    cases htext'.symm.trans hfields
  cases hsaved : (Await.redis k none).savedFile with
  | some info =>
    rw [command_of_savedFile hsaved] at hfields
    obtain ⟨fields', hfields', hget⟩ := Redis.execute_hset hcalm info.fileId info.serialize
    cases hfields'.symm.trans hfields
    rw [hget] at htext
    split_ifs at htext with hid
    · cases htext
      exact ⟨info, rfl, hid⟩
    · split at htext
      · rename_i old hold
        exact h old hold fileId text htext
      · cases htext
  | none =>
    rcases Redis.execute_filePoolKey (r := r) (command_ne_hset hsaved) with heq | ⟨text', htext'⟩
    · exact h fields (heq ▸ hfields) fileId text htext
    · cases htext'.symm.trans hfields

end Texts

/-- What a sequence of calls keeps while the reserved key is guarded. -/
structure ReservedInv (s : Server) : Prop where
  keys : s.KeyInv
  files : s.FilesKnown
  texts : PoolTexts s.redis
  nonempty : ∀ t a, s.At t a → ∀ fileId reply, a ≠ .redis (.setWritten fileId []) reply
  rejecting : ∀ (t : CallId) (c : Call), s.calls[t]? = some c → ∀ entries nodeId,
    c.request = .createAndLock entries nodeId → filePoolKey ∈ keysOf entries →
      s.Rejecting entries c.await

section Steps

theorem Rejecting.isRedis {a : Await} (h : s.Rejecting entries a) : a.isRedis := by
  obtain ⟨nodeId, key, rest, reply, rfl, -⟩ := h
  rfl

theorem Rejecting.congr {s' : Server} {a : Await} (h : s.Rejecting entries a)
    (hblob : s'.blob = s.blob) (hredis : s'.redis = s.redis) : s'.Rejecting entries a := by
  obtain ⟨nodeId, key, rest, reply, rfl, hcurrent, hrefuses⟩ := h
  refine ⟨nodeId, key, rest, reply, rfl, ?_, ?_⟩
  · rw [AsksCurrent, hblob, hredis]
    exact hcurrent
  · exact refuses_congr (fun key => entry_congr hblob (by rw [hredis])) (by rw [hblob]) hrefuses

/-- No creation with the reserved key is in flight while no call waits for Redis. -/
theorem ReservedInv.none_idle (hs : s.ReservedInv) {except : Option CallId}
    (hidle : s.RedisIdle except) {c : Call} (hcall : s.calls[t]? = some c)
    (hrequest : c.request = .createAndLock entries nodeId) (hkey : filePoolKey ∈ keysOf entries) :
    some t = except := by
  have hrejecting := hs.rejecting t c hcall entries nodeId hrequest hkey
  refine hidle.eq (at_of_call hcall) ?_
  rw [Await.isRedis_deaf]
  exact hrejecting.isRedis

theorem ReservedInv.settled (hs : s.ReservedInv) (hruns : Runs s action t request activity next)
    (halone : s.Alone action) (h : Part s t activity s₁ p) : KeysSynced s.blob s.redis :=
  hs.keys.keys _ (.settled (h.not_pending hruns halone hs.keys.pool.alone.fresh))

theorem Runs.call_of_start {r : Request} (h : Runs s action t request (.start r) next) :
    action = .call r := by
  cases h
  rfl

/-- A part of a creation with the reserved key. -/
theorem ReservedInv.rejecting_part (hs : s.ReservedInv)
    (hruns : Runs s action t (.createAndLock entries nodeId) activity next)
    (halone : s.Alone action) (hguarded : s.KeyGuarded action)
    (hkey : filePoolKey ∈ keysOf entries) (h : Part s t activity s₁ p) :
    (∃ e, p = .returns (.error e)) ∨ ∃ a, p = .waits a ∧ s₁.Rejecting entries a := by
  refine h.rejecting (hruns.of hs.keys.pool.alone.expected) ?_ ?_ ?_
  · rintro rfl
    cases hruns.call_of_start
    exact hguarded hkey
  · rintro a choice rfl
    generalize hrequest : Request.createAndLock entries nodeId = request at hruns
    cases hruns with
    | resume hcall => exact hs.rejecting t _ hcall entries nodeId hrequest.symm hkey
  · rintro a choice rfl key hkey v hv
    have hne := hs.keys.asked t _ hruns.at_resume key (by rwa [Await.asks_deaf])
    exact (hs.settled hruns halone h).readable key hne v hv

theorem ReservedInv.rejecting_step (hs : s.ReservedInv) {a : Action} (hseq : s.InSequence a)
    (hguarded : s.KeyGuarded a) {s' : Server} {es : List Event} (h : Step s a s' es) {c : Call}
    (hcall : s'.calls[t]? = some c) (hrequest : c.request = .createAndLock entries nodeId)
    (hkey : filePoolKey ∈ keysOf entries) : s'.Rejecting entries c.await := by
  cases h with
  | part hruns part =>
    rename_i t' request activity next s₁ p
    by_cases ht : t' = t
    · subst ht
      cases p with
      | waits a =>
        rw [after, settle, ExtTreeMap.getElem?_insert_self] at hcall
        cases hcall
        dsimp only at hrequest
        subst hrequest
        rcases hs.rejecting_part hruns hseq.1 hguarded hkey part with ⟨e, ⟨⟩⟩ | ⟨_, ⟨⟩, ha⟩
        exact ha.congr rfl rfl
      | returns r =>
        rw [after, settle, ExtTreeMap.getElem?_erase_self] at hcall
        cases hcall
    · have hcall₁ : s₁.calls[t]? = some c := by
        cases p with
        | waits a =>
          rw [after, settle, FiniteMap.getElem?_insert, if_neg ht] at hcall
          exact hcall
        | returns r =>
          rw [after, settle, FiniteMap.getElem?_erase, if_neg ht] at hcall
          exact hcall
      obtain ⟨c₀, hcall₀, heq⟩ := part.request_eq hcall₁
      have hredis := (hs.rejecting t c₀ hcall₀ entries nodeId (heq.trans hrequest) hkey).isRedis
      rw [← Await.isRedis_deaf, hruns.others_idle hseq.1 ht (at_of_call hcall₀)] at hredis
      cases hredis
  | execute hcall₀ =>
    rename_i t' request k
    rw [executed, FiniteMap.getElem?_insert] at hcall
    split_ifs at hcall with ht
    · cases hcall
      obtain ⟨nodeId', key, rest, reply, ⟨⟩, hcurrent, hrefuses⟩ :=
        hs.rejecting t' _ hcall₀ entries nodeId hrequest hkey
      have hredis : (s.executed t' request (.checkKey entries nodeId' key rest)).redis = s.redis := by
        rw [executed, Continuation.command, execute_get]
      refine ⟨nodeId', key, rest, _, rfl, ?_, ?_⟩
      · rintro _ ⟨⟩
        refine ⟨(hcurrent key rfl).1, ?_⟩
        rintro k reply ⟨⟩
        rw [hredis]
        rfl
      · exact refuses_congr (s := s) (fun key => entry_congr rfl (by rw [hredis])) rfl hrefuses
    · have hredis := (hs.rejecting t c hcall entries nodeId hrequest hkey).isRedis
      rw [← Await.isRedis_deaf] at hredis
      exact absurd (hs.keys.pool.alone.single _ _ _ _ (at_of_call hcall₀) (at_of_call hcall) rfl
        hredis) ht
  | expire hcleaner hlock =>
    obtain ⟨c₀, hcall₀, heq⟩ := request_notifyWaiters hcall
    cases hs.none_idle hseq.2 hcall₀ (heq.trans hrequest) hkey
  | stop =>
    cases hs.none_idle hseq.2 hcall hrequest hkey
  | receive => exact (hs.rejecting t c hcall entries nodeId hrequest hkey).congr rfl rfl
  | restart hboot =>
    obtain ⟨b, -, rfl⟩ := Option.map_eq_some_iff.mp hboot
    simp at hcall

theorem ReservedInv.acceptsLegal (hexpected : s.Expected)
    (h : ∀ (t : CallId) (c : Call), s.calls[t]? = some c → ∀ entries nodeId,
      c.request = .createAndLock entries nodeId → filePoolKey ∈ keysOf entries →
        s.Rejecting entries c.await) : s.AcceptsLegal := by
  intro t entries nodeId hat hkey
  obtain ⟨⟨request, await⟩, hcall, hawait⟩ := Option.map_eq_some_iff.mp hat
  have hexpects := Request.expects_deaf.mpr (hexpected t _ hcall)
  dsimp only at hawait hexpects
  rw [hawait] at hexpects
  cases hexpects
  obtain ⟨nodeId', key, rest, reply, heq, -⟩ := h t _ hcall entries nodeId rfl hkey
  dsimp only at heq
  subst heq
  cases hawait

theorem ReservedInv.nonempty_part (hs : s.ReservedInv)
    (hruns : Runs s action t request activity next) (halone : s.Alone action)
    (hguarded : s.KeyGuarded action) (h : Part s t activity s₁ p) {fileId : UInt32}
    {items : List (String × Value)} {reply : Option Reply}
    (hp : p = .waits (.redis (.setWritten fileId items) reply)) : items ≠ [] := by
  have hexpects := h.expects (hruns.of hs.keys.pool.alone.expected) _ hp
  cases h with
  | unlock hlock hnode =>
    rename_i file nodeId lock
    obtain ⟨hlegal, hmem⟩ := hs.keys.locks_mem hruns halone hlock
    obtain ⟨items', heq, hitems, -⟩ := markKeys_of_mem (b := (s.removeLock file).blob) hlegal hmem
      file []
    rw [heq] at hp
    cases hp
    cases hruns.call_of_start
    have hkeys : lock.keys ≠ [] := hguarded lock hlock hnode
    rintro hempty
    rw [List.nil_append] at hempty
    exact hkeys (hitems.symm.trans (congrArg (List.map Prod.fst) hempty))
  | markLoaded hl => exact absurd rfl (hs.keys.marked t _ hruns.at_resume _ _ _ _ _)
  | publish needsCreation byteOffset info =>
    rw [BlobStorage.publish_eq] at hp
    cases hp
  | check hc => cases hc <;> cases hp
  | checkAbsent hc => cases hc <;> cases hp
  | checkLoaded hl hc => cases hc <;> cases hp
  | lookup =>
    have hof := expects_startLookup _ _ _ hp
    cases hof
  | lookupLoaded hl =>
    have hof := expects_startLookup _ _ _ hp
    cases hof
  | _ => cases hp

theorem ReservedInv.step (hs : s.ReservedInv) {a : Action} (hseq : s.InSequence a)
    (hguarded : s.KeyGuarded a) {s' : Server} {es : List Event} (hstep : s.step a = some (s', es)) :
    s'.ReservedInv := by
  have h := step_of_eq hstep
  have hrejecting : ∀ (t : CallId) (c : Call), s'.calls[t]? = some c → ∀ entries nodeId,
      c.request = .createAndLock entries nodeId → filePoolKey ∈ keysOf entries →
        s'.Rejecting entries c.await :=
    fun t c hcall entries nodeId => hs.rejecting_step hseq hguarded h hcall
  have hlegal := ReservedInv.acceptsLegal (h.expected hs.keys.pool.alone.expected) hrejecting
  refine ⟨hs.keys.step hseq.1 hstep hlegal, hs.files.step h, ?_, ?_, hrejecting⟩
  · cases h with
    | part hruns part =>
      rw [after_redis, part.redis_eq]
      exact hs.texts
    | execute hcall => exact poolTexts_execute hs.texts _
    | restart hboot =>
      obtain ⟨b, -, rfl⟩ := Option.map_eq_some_iff.mp hboot
      exact hs.texts
    | _ => exact hs.texts
  · cases h with
    | part hruns part =>
      refine part.forall_at (fun t' a _ => hs.nonempty t' a) fun a hp fileId reply ha => ?_
      cases a <;> cases ha
      exact hs.nonempty_part hruns hseq.1 hguarded part hp rfl
    | execute hcall =>
      refine forall_at_execute (fun t' a _ => hs.nonempty t' a) ?_
      rintro fileId reply ⟨⟩
      exact hs.nonempty _ _ (at_of_call hcall) _ _ rfl
    | expire => exact fun t a hat => hs.nonempty t a ((at_notifyWaiters _).mp hat)
    | stop => exact hs.nonempty
    | receive => exact hs.nonempty
    | restart hboot => exact fun t a hat => absurd hat (not_at_boot hboot)

theorem reservedInv_boot {config : BlobStorageConfig} (h : boot config ∅ 0 = some s) :
    s.ReservedInv := by
  have hkeys := keyInv_boot h
  have hfiles := filesKnown_boot h
  refine ⟨hkeys, hfiles, ?_, fun t a hat => absurd hat (not_at_boot h), ?_⟩
  · obtain ⟨b, -, rfl⟩ := Option.map_eq_some_iff.mp h
    intro fields hfields
    simp at hfields
  · obtain ⟨b, -, rfl⟩ := Option.map_eq_some_iff.mp h
    simp

end Steps

section Pool

/-- The text of a file under the key of the file pool. -/
def fileText (r : Redis) (fileId : UInt32) : Option Value :=
  match r[filePoolKey]? with
  | some (.hash fields) => fields[fileId]?
  | _ => none

/-- Under the key of the file pool Redis has the pool in memory, once it has executed what is on its
way, and until then what was there before. Nothing else writes that key. -/
structure PoolProtected (s : Server) : Prop where
  hash : ¬s.redis.Clobbered
  texts : PoolTexts s.redis
  flushed : ∀ r, s.Flushed r → ∀ fileId,
    fileText r fileId = (s.blob.filePool[fileId]?).map FileInfo.serialize
  written : ∀ a s' es, s.step a = some (s', es) → s'.redis[filePoolKey]? = s.redis[filePoolKey]? ∨
    ∃ t k, a = .execute t ∧ s.At t (.redis k none) ∧ s'.redis = (s.redis.execute k.command).1 ∧
      ∃ info : FileInfo, k.command = .hset info.fileId info.serialize
  loads : ∀ config, ∃ b, BlobStorage.init config s.redis = some b

theorem exists_flushed (s : Server) : ∃ r, s.Flushed r := by
  by_cases h : ∃ t k, s.At t (.redis k none)
  · obtain ⟨t, k, hat⟩ := h
    exact ⟨_, .pending hat⟩
  · exact ⟨_, .settled fun t k hat => h ⟨t, k, hat⟩⟩

theorem Flushed.clobbered {r : Redis} (h : s.Flushed r) (hs : s.redis.Clobbered) : r.Clobbered := by
  cases h with
  | pending hat => exact hs.execute _
  | settled => exact hs

theorem Flushed.poolTexts {r : Redis} (h : s.Flushed r) (hs : PoolTexts s.redis) : PoolTexts r := by
  cases h with
  | pending hat => exact poolTexts_execute hs _
  | settled => exact hs

theorem fileText_eq {r : Redis} (htexts : PoolTexts r) (fileId : UInt32) :
    fileText r fileId = (r.storedFile fileId).map FileInfo.serialize := by
  rw [fileText, Redis.storedFile]
  cases hpool : r[filePoolKey]? with
  | none => rfl
  | some value =>
    cases value with
    | string text => rfl
    | hash fields =>
      dsimp only
      cases htext : fields[fileId]? with
      | none => rfl
      | some text =>
        obtain ⟨info, rfl, -⟩ := htexts fields hpool fileId text htext
        rw [Option.bind_some, info.deserialize_serialize]
        rfl

theorem ReservedInv.poolProtected (hs : s.ReservedInv) : s.PoolProtected := by
  obtain ⟨r, hr⟩ := s.exists_flushed
  have hcalm : ¬s.redis.Clobbered := fun h => (hs.keys.keys r hr).calm (hr.clobbered h)
  constructor
  case hash => exact hcalm
  case texts => exact hs.texts
  case flushed =>
    intro r hr fileId
    rw [fileText_eq (hr.poolTexts hs.texts),
      (hs.keys.pool.files r hr).synced (hs.keys.keys r hr).calm]
  case written =>
    intro a s' es hstep
    cases step_of_eq hstep with
    | part hruns part =>
      rw [after_redis, part.redis_eq]
      exact .inl rfl
    | execute hcall =>
      rename_i t request k
      have hat := at_of_call hcall
      cases hsaved : (Await.redis k none).savedFile with
      | some info => exact .inr ⟨t, k, rfl, hat, rfl, info, command_of_savedFile hsaved⟩
      | none =>
        left
        rcases Redis.execute_filePoolKey (r := s.redis) (command_ne_hset hsaved) with heq | hclobbered
        · exact heq
        · exact absurd hclobbered (hs.keys.keys _ (.pending hat)).calm
    | restart hboot =>
      obtain ⟨b, -, rfl⟩ := Option.map_eq_some_iff.mp hboot
      exact .inl rfl
    | _ => exact .inl rfl
  case loads => exact exists_init hs.keys.pool.ids.readable hcalm

end Pool

section Events

theorem startLookup_ne_panicked (b : BlobStorage) (key : String) :
    b.startLookup key ≠ .returns .panicked := by
  rw [BlobStorage.startLookup]
  split_ifs
  · simp
  · cases b.map[key]? with
    | none => simp
    | some l =>
      dsimp only
      rw [BlobStorage.lookupResponse]
      split_ifs <;> simp

/-- No unlock and no lookup panics. -/
theorem ReservedInv.no_panic (hs : s.ReservedInv) (hruns : Runs s action t request activity next)
    (halone : s.Alone action) (h : Part s t activity s₁ (.returns .panicked)) :
    request.reads = false := by
  have hof := hruns.of hs.keys.pool.alone.expected
  have hsettled := hs.settled hruns halone h
  generalize hp : Progress.returns .panicked = p at h
  cases h with
  | broken hbreaks =>
    rename_i choice k reply
    cases hof with
    | resume hexpects =>
      have hat := hruns.at_resume
      obtain ⟨r, hreply, hredis⟩ := hs.keys.pool.alone.answered t _ hat k reply rfl
      cases hexpects with
      | markKey => exact absurd rfl (hs.keys.marked t _ hat _ _ _ _ _)
      | setWritten =>
        rename_i fileId items
        cases items with
        | nil => exact absurd rfl (hs.nonempty t _ hat _ _)
        | cons e items => exact absurd hreply.symm hbreaks
      | lookup =>
        rename_i key
        rw [Continuation.command, execute_get] at hredis
        subst hredis
        rw [← hreply] at hbreaks
        have hne := hs.keys.asked t _ hat key rfl
        have hcalm : ¬Breaks (s.redis.execute (.get key)).2 (.checkKey [] "" key []) :=
          not_breaks_get (hsettled.readable key hne)
        exact absurd hbreaks hcalm
      | _ => rfl
  | unlock hlock hnode =>
    rename_i file nodeId lock
    obtain ⟨hlegal, hmem⟩ := hs.keys.locks_mem hruns halone hlock
    obtain ⟨items, heq, -⟩ := markKeys_of_mem (b := (s.removeLock file).blob) hlegal hmem file []
    rw [heq] at hp
    cases hp
  | markLoaded hl => exact absurd rfl (hs.keys.marked t _ hruns.at_resume _ _ _ _ _)
  | unlockedNone hnone =>
    obtain ⟨info, hinfo⟩ := FiniteMap.mem_iff_getElem?.mp
      (hs.files.unlocking t _ hruns.at_resume _ rfl)
    cases hinfo.symm.trans hnone
  | lookup => exact absurd hp.symm (startLookup_ne_panicked _ _)
  | lookupLoaded hl => exact absurd hp.symm (startLookup_ne_panicked _ _)
  | publish needsCreation byteOffset info =>
    rw [BlobStorage.publish_eq] at hp
    cases hp
  | check hc => cases hof; rfl
  | checkAbsent hc => rcases hof with _ | ⟨⟨⟩⟩; rfl
  | checkLoaded hl hc => rcases hof with _ | ⟨⟨⟩⟩; rfl
  | pickNone => rcases hof with _ | ⟨⟨⟩⟩; rfl
  | notifiedNone hnone => rcases hof with _ | ⟨⟨⟩⟩; rfl
  | reserveNone hnone => rcases hof with _ | ⟨⟨⟩⟩; rfl
  | keepAlivePanic hlock hnone => cases hof; rfl
  | _ => cases hp

/-- What a call with or without the reserved key may answer. -/
def Answers (e : Event) : Prop :=
  (∀ entries nodeId, e.request = .createAndLock entries nodeId → filePoolKey ∈ keysOf entries →
    ∃ error, e.response = .error error) ∧
  (e.request.reads → e.response ≠ .panicked)

theorem ReservedInv.answers (hs : s.ReservedInv) {a : Action} (hseq : s.InSequence a)
    (hguarded : s.KeyGuarded a) {s' : Server} {es : List Event} (hstep : s.step a = some (s', es)) :
    ∀ e ∈ es, Answers e := by
  cases step_of_eq hstep with
  | part hruns part =>
    rename_i t request activity next s₁ p
    cases p with
    | waits a => simp [settle]
    | returns r =>
      rintro e he
      cases List.mem_singleton.mp he
      constructor
      · rintro entries nodeId rfl hkey
        rcases hs.rejecting_part hruns hseq.1 hguarded hkey part with ⟨error, heq⟩ | ⟨a, ⟨⟩, -⟩
        cases heq
        exact ⟨error, rfl⟩
      · rintro hreads rfl
        rw [hs.no_panic hruns hseq.1 part] at hreads
        cases hreads
  | _ => simp

end Events

section Rejected

/-- The call is still in flight, or has returned an error. -/
def Rejected (s' : Server) (t : CallId) (request : Request) (es : List Event) : Prop :=
  (es = [] ∧ ∃ a, s'.calls[t]? = some ⟨request, a⟩) ∨ ∃ e, es = [⟨t, request, .error e⟩]

theorem ReservedInv.rejected_part (hs : s.ReservedInv)
    (hruns : Runs s action t (.createAndLock entries nodeId) activity next)
    (halone : s.Alone action) (hguarded : s.KeyGuarded action)
    (hkey : filePoolKey ∈ keysOf entries) (h : Part s t activity s₁ p) :
    Rejected (s₁.after t (.createAndLock entries nodeId) next p) t (.createAndLock entries nodeId)
      (({ s₁ with nextCall := next } : Server).settle t (.createAndLock entries nodeId) p).2 := by
  rcases hs.rejecting_part hruns halone hguarded hkey h with ⟨e, rfl⟩ | ⟨a, rfl, -⟩
  · exact .inr ⟨e, rfl⟩
  · exact .inl ⟨rfl, a, ExtTreeMap.getElem?_insert_self⟩

/-- While the call is in flight, no other call waits for Redis. -/
theorem ReservedInv.idle_others (hs : s.ReservedInv) {a : Await}
    (hcall : s.calls[t]? = some ⟨.createAndLock entries nodeId, a⟩)
    (hkey : filePoolKey ∈ keysOf entries) : s.RedisIdle (some t) := by
  have hrejecting := hs.rejecting t _ hcall entries nodeId rfl hkey
  rintro ⟨t', c⟩ hmem hredis
  have hcall' := ExtTreeMap.mem_toList_iff_getElem?_eq_some.mp hmem
  rw [← Await.isRedis_deaf] at hredis
  have hown : (Await.deaf a).isRedis := by
    rw [Await.isRedis_deaf]
    exact hrejecting.isRedis
  have ht := hs.keys.pool.alone.single _ _ _ _ (at_of_call hcall') (at_of_call hcall) hredis hown
  exact congrArg some ht

theorem CallRun.rejected (hs : s.ReservedInv) (hidle : s.RedisIdle none)
    (hkey : filePoolKey ∈ keysOf entries) (hrefuses : s.Refuses entries (keysOf entries))
    {s' : Server} {es : List Event} (h : CallRun s (.createAndLock entries nodeId) s' es) :
    s'.ReservedInv ∧ Rejected s' s.nextCall (.createAndLock entries nodeId) es := by
  induction h with
  | start hstep =>
    have hinv := hs.step (a := .call (.createAndLock entries nodeId)) ⟨hidle, trivial⟩
      (fun _ => hrefuses) hstep
    refine ⟨hinv, ?_⟩
    cases step_of_eq hstep with
    | part hruns part =>
      cases hruns
      exact hs.rejected_part (.start _) hidle (fun _ => hrefuses) hkey part
  | execute run hstep ih =>
    obtain ⟨hs₁, ⟨-, a, hcall⟩ | ⟨e, ⟨⟩⟩⟩ := ih
    refine ⟨hs₁.step (a := .execute s.nextCall) ⟨trivial, trivial⟩ trivial hstep, ?_⟩
    cases step_of_eq hstep with
    | part hruns part => cases hruns
    | execute hcall' =>
      cases hcall.symm.trans hcall'
      exact .inl ⟨rfl, _, ExtTreeMap.getElem?_insert_self⟩
  | resume run hstep ih =>
    rename_i s₁ s' es choice
    obtain ⟨hs₁, ⟨-, a, hcall⟩ | ⟨e, ⟨⟩⟩⟩ := ih
    have halone : s₁.Alone (.resume s.nextCall choice) := hs₁.idle_others hcall hkey
    refine ⟨hs₁.step (a := .resume s.nextCall choice) ⟨halone, trivial⟩ trivial hstep, ?_⟩
    cases step_of_eq hstep with
    | part hruns part =>
      cases hruns with
      | resume hcall' =>
        cases hcall.symm.trans hcall'
        have hruns : Runs s₁ (.resume s.nextCall choice) _ _ _ _ := .resume hcall
        exact hs₁.rejected_part hruns halone trivial hkey part

/-- The checks go on with fewer keys. -/
theorem shorter_of_part {nodeId' key key' : String} {rest rest' : List String} {reply : Reply}
    {choice : UInt32} {reply' : Option Reply}
    (h : Part s t (.resume (.redis (.checkKey entries nodeId key rest) (some reply)) choice) s₁
      (.waits (.redis (.checkKey entries nodeId' key' rest') reply'))) :
    rest'.length < rest.length := by
  cases h with
  | checkAbsent hc =>
    cases hc with
    | asks pre key rest hkeys hpre hkey hnone =>
      rw [hkeys, List.length_append, List.length_cons]
      omega
  | checkLoaded hl hc =>
    cases hc with
    | asks pre key₁ rest₁ hkeys hpre hkey hnone =>
      cases pre with
      | nil =>
        cases hkeys
        rw [BlobStorage.insertKey_map, ExtTreeMap.getElem?_insert_self] at hnone
        cases hnone
      | cons k pre =>
        have hrest : rest = pre ++ key' :: rest' := (List.cons.inj hkeys).2
        rw [hrest, List.length_append, List.length_cons]
        omega

/-- The creation ends. -/
theorem CallRun.ends (hs : s.ReservedInv) (hidle : s.RedisIdle none)
    (hkey : filePoolKey ∈ keysOf entries) (hrefuses : s.Refuses entries (keysOf entries)) (n : ℕ) :
    ∀ (s₁ : Server) (nodeId' key : String) (rest : List String) (reply : Option Reply),
      CallRun s (.createAndLock entries nodeId) s₁ [] →
      s₁.calls[s.nextCall]? = some ⟨.createAndLock entries nodeId,
        .redis (.checkKey entries nodeId' key rest) reply⟩ → rest.length < n →
      ∃ s' e, CallRun s (.createAndLock entries nodeId) s'
        [⟨s.nextCall, .createAndLock entries nodeId, .error e⟩] := by
  induction n with
  | zero => exact fun _ _ _ _ _ _ _ hlt => absurd hlt (Nat.not_lt_zero _)
  | succ n ih =>
    -- from the answer of Redis on
    have hanswered : ∀ (s₁ : Server) (nodeId' key : String) (rest : List String) (reply : Reply),
        CallRun s (.createAndLock entries nodeId) s₁ [] →
        s₁.calls[s.nextCall]? = some ⟨.createAndLock entries nodeId,
          .redis (.checkKey entries nodeId' key rest) (some reply)⟩ → rest.length < n + 1 →
        ∃ s' e, CallRun s (.createAndLock entries nodeId) s'
          [⟨s.nextCall, .createAndLock entries nodeId, .error e⟩] := by
      intro s₁ nodeId' key rest reply run hcall hlt
      have hstep : s₁.step (.resume s.nextCall 0) =
          some ((s₁.resumeRedis reply (.checkKey entries nodeId' key rest)).1.settle s.nextCall
            (.createAndLock entries nodeId)
              (s₁.resumeRedis reply (.checkKey entries nodeId' key rest)).2) :=
        step_resume hcall rfl
      have hpart := part_resumeRedis (s := s₁) (t := s.nextCall) 0 reply
        (.checkKey entries nodeId' key rest)
      generalize s₁.resumeRedis reply (.checkKey entries nodeId' key rest) = r at hstep hpart
      obtain ⟨s₂, p⟩ := r
      have run' := CallRun.resume run hstep
      obtain ⟨hs₂, hrejected⟩ := run'.rejected hs hidle hkey hrefuses
      rcases hrejected with ⟨hes, a, hcall'⟩ | ⟨e, hes⟩
      · cases p with
        | returns r => cases hes
        | waits a' =>
          obtain ⟨nodeId'', key', rest', reply', ha, -⟩ := hs₂.rejecting _ _ hcall' _ _ rfl hkey
          dsimp only at ha
          subst ha
          have ha' := hcall'
          dsimp only [settle] at ha'
          rw [ExtTreeMap.getElem?_insert_self] at ha'
          cases ha'
          exact ih _ _ _ _ _ run' hcall' (by have := shorter_of_part hpart; omega)
      · rw [hes] at run'
        exact ⟨_, e, run'⟩
    intro s₁ nodeId' key rest reply run hcall hlt
    cases reply with
    | some reply => exact hanswered s₁ nodeId' key rest reply run hcall hlt
    | none =>
      have run' := CallRun.execute run (step_execute hcall)
      exact hanswered _ nodeId' key rest _ run' ExtTreeMap.getElem?_insert_self hlt

/-- A batch with the reserved key that is refused ends in an error, with everything as it was. -/
theorem ReservedInv.rejects (hs : s.ReservedInv) (hidle : s.RedisIdle none)
    (hkey : filePoolKey ∈ keysOf entries) (hrefuses : s.Refuses entries (keysOf entries))
    (nodeId : String) : ∃ s' e, CallRun s (.createAndLock entries nodeId) s'
      [⟨s.nextCall, .createAndLock entries nodeId, .error e⟩] ∧ Intact s s' := by
  have hintact : ∀ {s' e}, CallRun s (.createAndLock entries nodeId) s'
      [⟨s.nextCall, .createAndLock entries nodeId, .error e⟩] → Intact s s' :=
    fun run => (run.untouched (r := .createAndLock entries nodeId) id).failed _ _ rfl
  have hstep := s.step_call (.createAndLock entries nodeId)
  have run := CallRun.start hstep
  obtain ⟨hs₁, ⟨hes, a, hcall⟩ | ⟨e, hes⟩⟩ := run.rejected hs hidle hkey hrefuses
  · rw [hes] at run
    obtain ⟨nodeId', key, rest, reply, ha, -⟩ := hs₁.rejecting _ _ hcall _ _ rfl hkey
    dsimp only at ha
    subst ha
    obtain ⟨s', e, run'⟩ :=
      CallRun.ends hs hidle hkey hrefuses (rest.length + 1) _ _ _ _ _ run hcall (by omega)
    exact ⟨s', e, run', hintact run'⟩
  · rw [hes] at run
    exact ⟨_, e, run, hintact run⟩

end Rejected

/-- While every batch with the reserved key is refused for another key, and no lock of an empty batch
is unlocked, Redis has the file pool under that key, these batches change nothing, and no unlock, lookup
or start panics. -/
theorem reservedKey_of_run {config : BlobStorageConfig} {s₀ : Server} {es : List Event}
    (hboot : boot config ∅ 0 = some s₀)
    (hrun : Run Server.step (fun s a => s.InSequence a ∧ s.KeyGuarded a) s₀ es s) :
    s.PoolProtected ∧ (∀ e ∈ es, Answers e) ∧
      ∀ entries nodeId, s.RedisIdle none → filePoolKey ∈ keysOf entries →
        s.Refuses entries (keysOf entries) → ∃ s' e, CallRun s (.createAndLock entries nodeId) s'
          [⟨s.nextCall, .createAndLock entries nodeId, .error e⟩] ∧ Intact s s' := by
  have hall : s.ReservedInv ∧ ∀ e ∈ es, Answers e := by
    refine hrun.invariantShown (I := fun es s => s.ReservedInv ∧ ∀ e ∈ es, Answers e)
      ⟨reservedInv_boot hboot, by simp⟩ ?_
    rintro shown s a s' es ⟨hs, hshown⟩ ⟨hseq, hguarded⟩ hstep
    refine ⟨hs.step hseq hguarded hstep, fun e he => ?_⟩
    rcases List.mem_append.mp he with he | he
    · exact hshown e he
    · exact hs.answers hseq hguarded hstep e he
  exact ⟨hall.1.poolProtected, hall.2, fun entries nodeId hidle hkey hrefuses =>
    hall.1.rejects hidle hkey hrefuses nodeId⟩

/-- A batch with the reserved key and a key that is written. -/
def reservedAndWritten : List BlobEntry := [⟨filePoolKey, 1⟩, ⟨"a", 1⟩]

theorem reservedKey_of_run_written : ∃ s₀ es s s' e, boot ⟨1⟩ ∅ 0 = some s₀ ∧
    Run Server.step (fun s a => s.InSequence a ∧ s.KeyGuarded a) s₀ es s ∧ s.PoolProtected ∧
      CallRun s (.createAndLock reservedAndWritten "node") s'
        [⟨s.nextCall, .createAndLock reservedAndWritten "node", .error e⟩] ∧ Intact s s' := by
  obtain ⟨s₀, hboot, hexec⟩ := Option.bind_eq_some_iff.mp
    (show ((boot ⟨1⟩ ∅ 0).bind fun s₀ =>
      (exec Server.step (fun s a => s.InSequence a ∧ s.KeyGuarded a) s₀
        (creation ++ [.call (.createUnlock 0 "node"), .execute 1, .resume 1 0,
          .call (.createAndLock reservedAndWritten "node")])).map fun r =>
        decide (r.1.RedisIdle none ∧ r.1.Refuses reservedAndWritten (keysOf reservedAndWritten))) =
          some true by decide +kernel)
  obtain ⟨s, es, hrun, hend⟩ := exists_run_of_exec hexec
  obtain ⟨hidle, hrefuses⟩ := of_decide_eq_true hend
  obtain ⟨hprotected, -, hrejects⟩ := reservedKey_of_run hboot hrun
  obtain ⟨s', e, run, hintact⟩ := hrejects _ "node" hidle (by decide) hrefuses
  exact ⟨s₀, es, s, s', e, hboot, hrun, hprotected, run, hintact⟩

/-- A batch with the reserved key alone, and its unlock. -/
def reservedOnly : List Action :=
  [.call (.createAndLock [⟨filePoolKey, 1⟩] "node"), .resume 0 0, .execute 0, .resume 0 0,
    .execute 0, .resume 0 0, .execute 0, .resume 0 0, .call (.createUnlock 0 "node")]

/-- The batch is accepted and overwrites the file pool in Redis; its unlock panics, and so does a
restart. -/
theorem not_reservedKey_accepted : ∃ s₀ es s, boot ⟨1⟩ ∅ 0 = some s₀ ∧
    Run Server.step InSequence s₀ es s ∧
      es = [⟨0, .createAndLock [⟨filePoolKey, 1⟩] "node", .offset ⟨0, "blob_0.bin", 0, true⟩⟩,
        ⟨1, .createUnlock 0 "node", .panicked⟩] ∧
      ¬s.PoolProtected ∧ BlobStorage.init ⟨1⟩ s.redis = none := by
  obtain ⟨s₀, hboot, hexec⟩ := Option.bind_eq_some_iff.mp
    (show ((boot ⟨1⟩ ∅ 0).bind fun s₀ => (exec Server.step InSequence s₀ reservedOnly).map fun r =>
      (r.2, (BlobStorage.init ⟨1⟩ r.1.redis).isNone)) = some
        ([⟨0, .createAndLock [⟨filePoolKey, 1⟩] "node", .offset ⟨0, "blob_0.bin", 0, true⟩⟩,
          ⟨1, .createUnlock 0 "node", .panicked⟩], true) by decide +kernel)
  obtain ⟨s, es, hrun, hend⟩ := exists_run_of_exec hexec
  simp only [Prod.mk.injEq, Option.isNone_iff_eq_none] at hend
  refine ⟨s₀, es, s, hboot, hrun, hend.1, fun hprotected => ?_, hend.2⟩
  obtain ⟨b, hinit⟩ := hprotected.loads ⟨1⟩
  cases hend.2.symm.trans hinit

end Server

end NpmFollower.BlobIdxServer
