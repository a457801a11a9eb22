import NpmFollower.BlobIdxClient.ReadAfterWrite

/-! # Created files

The server adds a file to its pool before a client creates it. The client still holds
the lock then, so a file without a lock exists, unless a lock is lost too early.
-/

namespace NpmFollower

open Std BlobIdxServer BlobIdxServer.Server Runs

namespace BlobIdxServer

/-- The slot names its file, and the file exists if the client is told to open it. -/
def BlobOffset.RightAbout (created : UInt32 → Prop) (blob : BlobOffset) : Prop :=
  blob.fileName = blobName blob.fileId ∧ (blob.needsCreation = false → created blob.fileId)

/-- What a call that waits there takes for granted of its file. -/
def Await.RightAbout (created : UInt32 → Prop) : Await → Prop
  | .unlockNotify _ _ fileId notified => notified = true → created fileId
  | .redis (.addFile _ _ fileId info) _ => info.fileId = fileId ∧ info.fileName = blobName fileId
  | .redis (.setSize _ _ fileId needsCreation _ info) _ =>
    info.fileId = fileId ∧ info.fileName = blobName fileId ∧ (needsCreation = false → created fileId)
  | .redis (.setSlices offset _) _ => offset.RightAbout created
  | .redis (.markKey fileId _ _ _) _ => created fileId
  | .redis (.setWritten fileId _) _ => created fileId
  | _ => True

namespace Server

/-- The files have their names, and a file that is not created is locked. -/
structure FilesHeld (created : UInt32 → Prop) (s : Server) : Prop where
  named : ∀ fileId (info : FileInfo), s.blob.filePool[fileId]? = some info →
    info.fileId = fileId ∧ info.fileName = blobName fileId
  held : ∀ fileId (info : FileInfo), s.blob.filePool[fileId]? = some info →
    created fileId ∨ (s.blob.lockedFiles[fileId]?).isSome
  calls : ∀ (t : CallId) (c : Call), s.calls[t]? = some c → c.await.RightAbout created
  readable : s.redis.FilesReadable
  stored : ∀ fileId (info : FileInfo), s.redis.storedFile fileId = some info →
    info.fileName = blobName fileId

variable {created : UInt32 → Prop} {s s₁ s' : Server} {t : CallId} {activity : Activity}
  {p : Progress} {request : Request} {next : CallId}

section Mono

variable {created' : UInt32 → Prop}

theorem rightAbout_mono (hmore : ∀ fileId, created fileId → created' fileId) {blob : BlobOffset}
    (h : blob.RightAbout created) : blob.RightAbout created' :=
  ⟨h.1, fun hopens => hmore _ (h.2 hopens)⟩

theorem awaitRightAbout_mono (hmore : ∀ fileId, created fileId → created' fileId) {a : Await}
    (h : a.RightAbout created) : a.RightAbout created' := by
  cases a with
  | redis k reply =>
    cases k with
    | setSize => exact ⟨h.1, h.2.1, fun hopens => hmore _ (h.2.2 hopens)⟩
    | setSlices => exact rightAbout_mono hmore h
    | markKey => exact hmore _ h
    | setWritten => exact hmore _ h
    | _ => exact h
  | unlockNotify => exact fun hnotified => hmore _ (h hnotified)
  | _ => trivial

/-- More files have been created. -/
theorem FilesHeld.mono (hs : s.FilesHeld created) (hmore : ∀ fileId, created fileId → created' fileId) :
    s.FilesHeld created' where
  named := hs.named
  held fileId info hinfo := (hs.held fileId info hinfo).imp_left (hmore fileId)
  calls t c hcall := awaitRightAbout_mono hmore (hs.calls t c hcall)
  readable := hs.readable
  stored := hs.stored

end Mono

section Parts

theorem rightAbout_checked {b : BlobStorage} {entries : List BlobEntry} {nodeId : String}
    {keys : List String} (h : b.Checked entries nodeId keys p) :
    ∀ a, p = .waits a → a.RightAbout created := by
  cases h <;> rintro _ ⟨⟩ <;> trivial

theorem rightAbout_marked {b : BlobStorage} {fileId : UInt32} {keys : List String}
    {toSet : List (String × PostgresDb.Value)} (h : b.Marked fileId keys toSet p) (hcreated : created fileId) :
    ∀ a, p = .waits a → a.RightAbout created := by
  cases h <;> rintro _ ⟨⟩ <;> exact hcreated

theorem rightAbout_startLookup (b : BlobStorage) (key : String) :
    ∀ a, b.startLookup key = .waits a → a.RightAbout created := by
  intro a ha
  rw [BlobStorage.startLookup] at ha
  split_ifs at ha
  split at ha <;> cases ha
  trivial

theorem FilesHeld.part_named (hs : s.FilesHeld created) (h : Part s t activity s₁ p) :
    ∀ fileId (info : FileInfo), s₁.blob.filePool[fileId]? = some info →
      info.fileId = fileId ∧ info.fileName = blobName fileId := by
  intro fileId info hinfo
  cases h.poolMove with
  | same hpool =>
    rw [hpool] at hinfo
    exact hs.named fileId info hinfo
  | add entries nodeId hsize hpool =>
    rw [hpool, FiniteMap.getElem?_insert] at hinfo
    split_ifs at hinfo with hid
    · cases hinfo
      exact ⟨hid, by rw [← hid]; rfl⟩
    · exact hs.named fileId info hinfo
  | grow entries nodeId fileId' info' needsCreation hinfo' hpool =>
    rw [hpool, FiniteMap.getElem?_insert] at hinfo
    split_ifs at hinfo with hid
    · cases hinfo
      subst hid
      exact hs.named _ info' hinfo'
    · exact hs.named fileId info hinfo

/-- An unlock comes when the file is created, so a file that is not stays locked. -/
theorem FilesHeld.part_held (hs : s.FilesHeld created) (h : Part s t activity s₁ p)
    (hunlock : ∀ fileId nodeId, activity = .start (.createUnlock fileId nodeId) → created fileId) :
    ∀ fileId (info : FileInfo), s₁.blob.filePool[fileId]? = some info →
      created fileId ∨ (s₁.blob.lockedFiles[fileId]?).isSome := by
  intro fileId info hinfo
  have hpick : ∀ (fileId' : UInt32) (info' : FileInfo) (lock : FileLock),
      (s.blob.filePool.insert fileId' info')[fileId]? = some info →
        created fileId ∨ ((s.blob.lockedFiles.insert fileId' lock)[fileId]?).isSome := by
    intro fileId' info' lock hinfo'
    rw [FiniteMap.getElem?_insert] at hinfo' ⊢
    split_ifs at hinfo' ⊢
    · exact .inr rfl
    · exact hs.held fileId info hinfo'
  have hremove : ∀ fileId' : UInt32, created fileId' → s.blob.filePool[fileId]? = some info →
      created fileId ∨ ((s.blob.lockedFiles.erase fileId')[fileId]?).isSome := by
    intro fileId' hcreated hinfo'
    rw [FiniteMap.getElem?_erase]
    split_ifs with hid
    · exact .inl (hid ▸ hcreated)
    · exact hs.held fileId info hinfo'
  cases h with
  | pickNew => exact hpick _ _ _ hinfo
  | pickFree => exact hpick _ _ _ hinfo
  | notified => exact hpick _ _ _ hinfo
  | reserve hinfo' =>
    change (s.blob.filePool.insert _ _)[fileId]? = some info at hinfo
    rw [FiniteMap.getElem?_insert] at hinfo
    split_ifs at hinfo with hid
    · subst hid
      exact hs.held _ _ hinfo'
    · exact hs.held fileId info hinfo
  | wrongNode hlock hnode =>
    exact hremove _ (hunlock _ _ rfl) hinfo
  | unlock hlock hnode =>
    rw [withBlob] at hinfo ⊢
    rw [BlobStorage.markKeys_filePool] at hinfo
    rw [BlobStorage.markKeys_lockedFiles]
    exact hremove _ (hunlock _ _ rfl) hinfo
  | publish needsCreation byteOffset info' =>
    rw [BlobStorage.publish_eq] at hinfo ⊢
    exact hs.held fileId info hinfo
  | markLoaded hl =>
    rw [withBlob] at hinfo ⊢
    rw [BlobStorage.markKeys_filePool] at hinfo
    rw [BlobStorage.markKeys_lockedFiles]
    exact hs.held fileId info hinfo
  | unlocked hinfo' =>
    rw [abortCleaner_eq] at hinfo ⊢
    exact hs.held fileId info hinfo
  | unlockedNone hnone =>
    rw [abortCleaner_eq] at hinfo ⊢
    exact hs.held fileId info hinfo
  | _ => exact hs.held fileId info hinfo

/-- A call that goes on is right about its file: it has added it, found it without a lock, or was
notified when its lock was gone. -/
theorem FilesHeld.part_await (hs : s.FilesHeld created) (h : Part s t activity s₁ p)
    (hunlock : ∀ fileId nodeId, activity = .start (.createUnlock fileId nodeId) → created fileId)
    (hresume : ∀ a choice, activity = .resume a choice → a.RightAbout created) :
    ∀ a, p = .waits a → a.RightAbout created := by
  cases h with
  | check hp => exact rightAbout_checked hp
  | checkAbsent hp => exact rightAbout_checked hp
  | checkLoaded hl hp => exact rightAbout_checked hp
  | pickNew hlock hsize hfile =>
    rintro _ ⟨⟩
    exact ⟨rfl, rfl⟩
  | pickFree hlock hsize hfree hinfo =>
    rintro _ ⟨⟩
    obtain ⟨hid, hname⟩ := hs.named _ _ hinfo
    refine ⟨hid, hname, fun _ => ?_⟩
    have hheld := hs.held _ _ hinfo
    rw [hfree] at hheld
    simpa using hheld
  | pickWait =>
    rintro _ ⟨⟩ ⟨⟩
  | notified hinfo =>
    rintro _ ⟨⟩
    obtain ⟨hid, hname⟩ := hs.named _ _ hinfo
    exact ⟨hid, hname, fun _ => hresume _ _ rfl rfl⟩
  | reserve hinfo =>
    rintro _ ⟨⟩
    obtain ⟨hid, hname⟩ := hs.named _ _ hinfo
    exact ⟨hid, hname, by rintro ⟨⟩⟩
  | publish needsCreation byteOffset info =>
    rw [BlobStorage.publish_eq]
    rintro _ ⟨⟩
    exact (hresume _ _ rfl).2
  | unlock hlock hnode =>
    exact rightAbout_marked (BlobStorage.markKeys_marked _ _ _) (hunlock _ _ rfl)
  | markLoaded hl => exact rightAbout_marked (BlobStorage.markKeys_marked _ _ _) (hresume _ _ rfl)
  | lookup => exact rightAbout_startLookup _ _
  | lookupLoaded hl => exact rightAbout_startLookup _ _
  | keepAliveSend => rintro _ ⟨⟩; trivial
  | _ => rintro _ ⟨⟩

theorem notify_rightAbout {fileId : UInt32} (hcreated : created fileId) {c : Call}
    (h : c.await.RightAbout created) : (c.notify fileId).await.RightAbout created := by
  obtain ⟨request, await⟩ := c
  cases await with
  | unlockNotify entries nodeId fileId' notified =>
    intro hnotified
    rw [Bool.or_eq_true, beq_iff_eq] at hnotified
    rcases hnotified with hnotified | rfl
    · exact h hnotified
    · exact hcreated
  | _ => exact h

theorem notifyWaiters_rightAbout {fileId : UInt32} (hcreated : created fileId)
    (h : ∀ (t : CallId) (c : Call), s.calls[t]? = some c → c.await.RightAbout created) :
    ∀ (t : CallId) (c : Call), (s.notifyWaiters fileId).calls[t]? = some c →
      c.await.RightAbout created := by
  intro t c hcall
  rw [notifyWaiters, ExtTreeMap.getElem?_map] at hcall
  obtain ⟨c₀, hcall₀, rfl⟩ := Option.map_eq_some_iff.mp hcall
  exact notify_rightAbout hcreated (h t c₀ hcall₀)

theorem FilesHeld.part_calls (hs : s.FilesHeld created) (h : Part s t activity s₁ p)
    (hresume : ∀ a choice, activity = .resume a choice → a.RightAbout created) :
    ∀ (t : CallId) (c : Call), s₁.calls[t]? = some c → c.await.RightAbout created := by
  cases h with
  | unlocked hinfo =>
    apply notifyWaiters_rightAbout (hresume _ _ rfl)
    rw [abortCleaner_eq]
    exact hs.calls
  | unlockedNone hnone =>
    rw [abortCleaner_eq]
    exact hs.calls
  | _ => exact hs.calls

/-- Only a creation that Redis has answered returns a slot. -/
theorem Part.offset_eq {blob : BlobOffset} (h : Part s t activity s₁ (.returns (.offset blob))) :
    ∃ toSetInRedis choice,
      activity = .resume (.redis (.setSlices blob toSetInRedis) (some .ok)) choice := by
  have hmarked : ∀ (b : BlobStorage) (fileId : UInt32) (keys : List String)
      (toSet : List (String × PostgresDb.Value)),
      (b.markKeys fileId keys toSet).2 ≠ .returns (.offset blob) := by
    intro b fileId keys toSet heq
    have h := BlobStorage.markKeys_marked (b := b) fileId keys toSet
    rw [heq] at h
    cases h
  have hlookup : ∀ (b : BlobStorage) (key : String), b.startLookup key ≠ .returns (.offset blob) := by
    intro b key heq
    rw [BlobStorage.startLookup] at heq
    split_ifs at heq
    · cases heq
    · split at heq
      · rw [BlobStorage.lookupResponse] at heq
        split_ifs at heq <;> cases heq
      · cases heq
  generalize hp : Progress.returns (.offset blob) = p at h
  cases h with
  | check hc => subst hp; cases hc
  | checkAbsent hc => subst hp; cases hc
  | checkLoaded hl hc => subst hp; cases hc
  | publish needsCreation byteOffset info =>
    rw [BlobStorage.publish_eq] at hp
    cases hp
  | created o toSetInRedis =>
    cases hp
    exact ⟨_, _, rfl⟩
  | unlock hlock hnode => exact absurd hp.symm (hmarked _ _ _ _)
  | markLoaded hl => exact absurd hp.symm (hmarked _ _ _ _)
  | lookup => exact absurd hp.symm (hlookup _ _)
  | lookupLoaded hl => exact absurd hp.symm (hlookup _ _)
  | _ => cases hp

end Parts

/-- The slots that are handed out are right about their files. -/
def GrantsRight (created : UInt32 → Prop) (es : List Event) : Prop :=
  ∀ e ∈ es, ∀ blob, e.response = .offset blob → blob.RightAbout created

theorem FilesHeld.part (hs : s.FilesHeld created) {action : Action}
    (hruns : Runs s action t request activity next) (h : Part s t activity s₁ p)
    (hunlock : ∀ fileId nodeId, action = .call (.createUnlock fileId nodeId) → created fileId) :
    (s₁.after t request next p).FilesHeld created ∧
      GrantsRight created (({ s₁ with nextCall := next } : Server).settle t request p).2 := by
  have hunlock' : ∀ fileId nodeId, activity = .start (.createUnlock fileId nodeId) →
      created fileId := by
    rintro fileId nodeId rfl
    cases hruns
    exact hunlock fileId nodeId rfl
  have hresume : ∀ a choice, activity = .resume a choice → a.RightAbout created := by
    rintro a choice rfl
    cases hruns with
    | resume hcall => exact hs.calls _ _ hcall
  have hothers := hs.part_calls h hresume
  refine ⟨⟨?_, ?_, ?_, ?_, ?_⟩, ?_⟩
  · rw [after_blob]
    exact hs.part_named h
  · rw [after_blob]
    exact hs.part_held h hunlock'
  · intro t' c hcall
    cases p with
    | waits a =>
      rw [after, settle, FiniteMap.getElem?_insert] at hcall
      split_ifs at hcall
      · cases hcall
        exact hs.part_await h hunlock' hresume a rfl
      · exact hothers t' c hcall
    | returns r =>
      rw [after, settle, FiniteMap.getElem?_erase] at hcall
      split_ifs at hcall
      exact hothers t' c hcall
  · rw [after_redis, h.redis_eq]
    exact hs.readable
  · rw [after_redis, h.redis_eq]
    exact hs.stored
  · intro e he blob hblob
    cases p with
    | waits a => cases he
    | returns r =>
      cases List.mem_singleton.mp he
      dsimp only at hblob
      subst hblob
      obtain ⟨toSetInRedis, choice, rfl⟩ := h.offset_eq
      exact hresume _ _ rfl

theorem FilesHeld.execute (hs : s.FilesHeld created) {k : Continuation}
    (hcall : s.calls[t]? = some ⟨request, .redis k none⟩) :
    (s.executed t request k).FilesHeld created := by
  have hright := hs.calls t _ hcall
  refine ⟨hs.named, hs.held, ?_, filesReadable_execute hs.readable, ?_⟩
  · intro t' c hcall'
    rw [executed, FiniteMap.getElem?_insert] at hcall'
    split_ifs at hcall'
    · cases hcall'
      cases k <;> exact hright
    · exact hs.calls t' c hcall'
  · intro fileId info hinfo
    change (s.redis.execute k.command).1.storedFile fileId = some info at hinfo
    by_cases hcalm : (s.redis.execute k.command).1.Clobbered
    · rw [hcalm.storedFile_eq] at hinfo
      cases hinfo
    · rw [storedFile_execute hcalm] at hinfo
      split at hinfo
      · next saved hsaved =>
        split_ifs at hinfo with hid
        · cases hinfo
          cases k <;> cases hsaved
          · rw [hright.2, ← hright.1, hid]
          · rw [hright.2.1, ← hright.1, hid]
        · exact hs.stored fileId info hinfo
      · exact hs.stored fileId info hinfo

/-- The files of the pool in Redis have been created. -/
theorem filesHeld_boot {config : BlobStorageConfig} {redis : Redis}
    (hreadable : redis.FilesReadable)
    (hstored : ∀ fileId (info : FileInfo), redis.storedFile fileId = some info →
      info.fileName = blobName fileId)
    (hcreated : ∀ fileId, (redis.storedFile fileId).isSome → created fileId)
    (hboot : boot config redis next = some s') : s'.FilesHeld created := by
  obtain ⟨b, hinit, rfl⟩ := Option.map_eq_some_iff.mp hboot
  have hpool := init_filePool hreadable hinit
  refine ⟨?_, ?_, ?_, hreadable, hstored⟩
  · intro fileId info hinfo
    change b.filePool[fileId]? = some info at hinfo
    rw [hpool] at hinfo
    exact ⟨hreadable.fileId_eq hinfo, hstored fileId info hinfo⟩
  · intro fileId info hinfo
    change b.filePool[fileId]? = some info at hinfo
    rw [hpool] at hinfo
    exact .inl (hcreated fileId (Option.isSome_of_eq_some hinfo))
  · intro t c hcall
    simp at hcall

theorem FilesHeld.step (hs : s.FilesHeld created) {a : Action} {es : List Event} (h : Step s a s' es)
    (hunlock : ∀ fileId nodeId, a = .call (.createUnlock fileId nodeId) → created fileId)
    (htick : ∀ cleaner, a = .tick cleaner → ∀ c ∈ s.cleaners[cleaner]?,
      (s.blob.lockedFiles[c.fileId]?).isSome → created c.fileId)
    (hrestart : ∀ config, a = .restart config → ∀ fileId, (s.redis.storedFile fileId).isSome →
      created fileId) :
    s'.FilesHeld created ∧ GrantsRight created es := by
  cases h with
  | part hruns part => exact hs.part hruns part hunlock
  | execute hcall => exact ⟨hs.execute hcall, by rintro _ ⟨⟩⟩
  | expire hcleaner hlock =>
    have hcreated := htick _ rfl _ hcleaner (Option.isSome_of_eq_some hlock)
    refine ⟨⟨hs.named, ?_, notifyWaiters_rightAbout hcreated hs.calls, hs.readable, hs.stored⟩,
      by rintro _ ⟨⟩⟩
    intro fileId info hinfo
    change created fileId ∨ ((s.blob.lockedFiles.erase _)[fileId]?).isSome
    rw [FiniteMap.getElem?_erase]
    split_ifs with hid
    · exact .inl (hid ▸ hcreated)
    · exact hs.held fileId info hinfo
  | stop => exact ⟨⟨hs.named, hs.held, hs.calls, hs.readable, hs.stored⟩, by rintro _ ⟨⟩⟩
  | receive => exact ⟨⟨hs.named, hs.held, hs.calls, hs.readable, hs.stored⟩, by rintro _ ⟨⟩⟩
  | restart hboot =>
    exact ⟨filesHeld_boot hs.readable hs.stored (hrestart _ rfl) hboot, by rintro _ ⟨⟩⟩

end Server

end BlobIdxServer

namespace BlobIdxClient

namespace Store

/-- The chunk file has been created. -/
def Created (w : Store) (fileId : UInt32) : Prop := (w.files[blobName fileId]?).isSome

instance (w : Store) (fileId : UInt32) : Decidable (w.Created fileId) :=
  inferInstanceAs (Decidable ((w.files[blobName fileId]?).isSome = true))

/-- No lock expires while its file is not created, and the server is not started again while the
pool in Redis has such a file. -/
def AwaitsCreation (w : Store) : Move → Prop
  | .serve (.tick cleaner) => ∀ c ∈ w.server.cleaners[cleaner]?,
    (w.server.blob.lockedFiles[c.fileId]?).isSome → w.Created c.fileId
  | .serve (.restart _) =>
    ∀ fileId, (w.server.redis.storedFile fileId).isSome → w.Created fileId
  | _ => True

/-- What holds of the files in a run in which locks and restarts await their creation. -/
structure FilesInv (w : Store) : Prop where
  server : w.server.FilesHeld w.Created
  granted : ∀ (session : CallId) (x : Session), w.sessions[session]? = some x → ∀ blob,
    x.state.granted = some blob → blob.RightAbout w.Created
  opened : ∀ (session : CallId) (x : Session), w.sessions[session]? = some x →
    ∀ blob position rest, x.state = .writing blob position rest → w.Created blob.fileId

variable {w w' : Store} {session : CallId} {x : Session} {es : List Event}

theorem writing_of_receive {state : SessionState} {e : Event} {blob : BlobOffset} {position : ℕ}
    {rest : List (List UInt8)} (h : state.receive session e = .writing blob position rest) :
    state = .writing blob position rest := by
  cases state with
  | creating =>
    rw [SessionState.receive] at h
    split_ifs at h
    split at h <;> cases h
  | unlocking blob' call =>
    rw [SessionState.receive] at h
    split_ifs at h
    split at h <;> cases h
  | _ => exact h

theorem writing_of_events {state : SessionState} {blob : BlobOffset} {position : ℕ}
    {rest : List (List UInt8)}
    (h : es.foldl (fun state e => state.receive session e) state = .writing blob position rest) :
    state = .writing blob position rest := by
  induction es generalizing state with
  | nil => exact h
  | cons e es ih => exact writing_of_receive (ih h)

theorem granted_of_events {state : SessionState} {blob : BlobOffset}
    (h : (es.foldl (fun state e => state.receive session e) state).granted = some blob) :
    state.granted = some blob ∨ ∃ e ∈ es, e.response = .offset blob := by
  induction es generalizing state with
  | nil => exact .inl h
  | cons e es ih =>
    rcases ih h with hgranted | ⟨e', he', hblob⟩
    · rcases granted_of_receive hgranted with hgranted | hblob
      · exact .inl hgranted
      · exact .inr ⟨e, List.mem_cons_self, hblob⟩
    · exact .inr ⟨e', List.mem_cons_of_mem _ he', hblob⟩

theorem created_setFile {fileName : String} {bytes : List UInt8} {fileId : UInt32}
    (h : w.Created fileId) : (w.setFile fileName bytes).Created fileId := by
  rw [Created, setFile, FiniteMap.getElem?_insert]
  split_ifs
  · rfl
  · exact h

theorem created_serve {a : Action} (h : w.serve a = some (w', es)) {fileId : UInt32}
    (hcreated : w.Created fileId) : w'.Created fileId := by
  obtain ⟨s', -, rfl⟩ := exists_of_serve h
  exact hcreated

/-- No file is removed. -/
theorem created_step {m : Move} (h : w.step m = some (w', es)) {fileId : UInt32}
    (hcreated : w.Created fileId) : w'.Created fileId := by
  cases m with
  | store blobs nodeId =>
    have hbegin : (w.addSession blobs nodeId).Created fileId := hcreated
    exact created_serve h hbegin
  | openFile session =>
    obtain ⟨w'', hopen, heq⟩ := Option.map_eq_some_iff.mp h
    cases heq
    obtain ⟨x, hx, hrest⟩ := Option.bind_eq_some_iff.mp hopen
    split at hrest
    · split at hrest
      · cases hrest
        exact hcreated
      · cases hrest
        exact hcreated
      · dsimp only at hrest
        split_ifs at hrest <;> cases hrest <;> exact created_setFile hcreated
    · cases hrest
  | write session n =>
    obtain ⟨w'', hwrite, heq⟩ := Option.map_eq_some_iff.mp h
    cases heq
    obtain ⟨x, hx, hrest⟩ := Option.bind_eq_some_iff.mp hwrite
    split at hrest
    · split_ifs at hrest
      · cases hrest
        exact hcreated
      · obtain ⟨file, hfile, hrest⟩ := Option.bind_eq_some_iff.mp hrest
        dsimp only at hrest
        split_ifs at hrest <;> cases hrest
        · exact created_setFile hcreated
        · exact hcreated
    · cases hrest
  | unlock session =>
    obtain ⟨x, hx, hrest⟩ := Option.bind_eq_some_iff.mp h
    split at hrest
    · exact created_serve hrest hcreated
    · cases hrest
  | keepAlive fileId => exact created_serve h hcreated
  | lookup key => exact created_serve h hcreated
  | serve a => cases a <;> first | exact created_serve h hcreated | cases h

namespace FilesInv

theorem setFile (hw : w.FilesInv) (fileName : String) (bytes : List UInt8) :
    (w.setFile fileName bytes).FilesInv where
  server := hw.server.mono fun _ => created_setFile
  granted session x hx blob hblob :=
    rightAbout_mono (fun _ => created_setFile) (hw.granted session x hx blob hblob)
  opened session x hx blob position rest hstate :=
    created_setFile (hw.opened session x hx blob position rest hstate)

/-- A session goes on with the range it has been granted. -/
theorem setSession (hw : w.FilesInv) (hx : w.sessions[session]? = some x) (state : SessionState)
    (hgranted : ∀ blob, state.granted = some blob → x.state.granted = some blob)
    (hopened : ∀ blob position rest, state = .writing blob position rest →
      w.Created blob.fileId) : (w.setSession session x state).FilesInv := by
  refine ⟨hw.server, ?_, ?_⟩
  · intro session' x' hx' blob hblob
    rw [getElem?_setSession] at hx'
    split_ifs at hx'
    · cases hx'
      exact hw.granted session x hx blob (hgranted blob hblob)
    · exact hw.granted session' x' hx' blob hblob
  · intro session' x' hx' blob position rest hstate
    rw [getElem?_setSession] at hx'
    split_ifs at hx'
    · cases hx'
      exact hopened blob position rest hstate
    · exact hw.opened session' x' hx' blob position rest hstate

theorem begin (hw : w.FilesInv) (blobs : List Blob) (nodeId : String) :
    (w.addSession blobs nodeId).FilesInv := by
  refine ⟨hw.server, ?_, ?_⟩
  · intro session x hx blob hblob
    rw [addSession, FiniteMap.getElem?_insert] at hx
    split_ifs at hx
    · cases hx
      cases hblob
    · exact hw.granted session x hx blob hblob
  · intro session x hx blob position rest hstate
    rw [addSession, FiniteMap.getElem?_insert] at hx
    split_ifs at hx
    · cases hx
      cases hstate
    · exact hw.opened session x hx blob position rest hstate

/-- The server goes on, and the sessions learn what it answers. -/
theorem serve (hw : w.FilesInv) {a : Action} (hawaits : w.AwaitsCreation (.serve a))
    (hunlock : ∀ fileId nodeId, a = .call (.createUnlock fileId nodeId) → w.Created fileId)
    (h : w.serve a = some (w', es)) : w'.FilesInv ∧ GrantsRight w'.Created es := by
  obtain ⟨s', hstep, rfl⟩ := exists_of_serve h
  obtain ⟨hserver, hgrants⟩ := hw.server.step (step_of_eq hstep) hunlock
    (by rintro cleaner rfl; exact hawaits) (by rintro config rfl; exact hawaits)
  refine ⟨⟨hserver, ?_, ?_⟩, hgrants⟩
  · intro session x hx blob hblob
    rw [getElem?_hear] at hx
    obtain ⟨x₀, hx₀, rfl⟩ := Option.map_eq_some_iff.mp hx
    rcases granted_of_events hblob with hblob | ⟨e, he, hblob⟩
    · exact hw.granted session x₀ hx₀ blob hblob
    · exact hgrants e he blob hblob
  · intro session x hx blob position rest hstate
    rw [getElem?_hear] at hx
    obtain ⟨x₀, hx₀, rfl⟩ := Option.map_eq_some_iff.mp hx
    exact hw.opened session x₀ hx₀ blob position rest (writing_of_events hstate)

theorem openFile (hw : w.FilesInv) (h : w.openFile session = some w') : w'.FilesInv := by
  obtain ⟨x, hx, hrest⟩ := Option.bind_eq_some_iff.mp h
  split at hrest
  · rename_i blob hstate
    split at hrest
    · cases hrest
      exact hw.setSession hx .failed (by rintro _ ⟨⟩) (by rintro _ _ _ ⟨⟩)
    · cases hrest
      exact hw.setSession hx .failed (by rintro _ ⟨⟩) (by rintro _ _ _ ⟨⟩)
    · have hright := hw.granted session x hx blob (by rw [hstate]; rfl)
      have hopened := hw.setFile blob.fileName ((w.files[blob.fileName]?).getD [])
      dsimp only at hrest
      split_ifs at hrest
      · cases hrest
        apply hopened.setSession hx
        · rintro _ ⟨⟩
          rw [hstate]
          rfl
        · rintro _ _ _ ⟨⟩
          rw [Created, hright.1, Store.setFile, FiniteMap.getElem?_insert, if_pos rfl]
          rfl
      · cases hrest
        exact hopened.setSession hx .failed (by rintro _ ⟨⟩) (by rintro _ _ _ ⟨⟩)
  · cases hrest

theorem write (hw : w.FilesInv) {n : ℕ} (h : w.write session n = some w') : w'.FilesInv := by
  obtain ⟨x, hx, hrest⟩ := Option.bind_eq_some_iff.mp h
  split at hrest
  · rename_i blob position bytes rest hstate
    have hcreated := hw.opened session x hx blob position _ hstate
    have hgranted : ∀ (position' : ℕ) (rest' : List (List UInt8)) (blob' : BlobOffset),
        SessionState.granted (.writing blob position' rest') = some blob' →
          x.state.granted = some blob' := by
      rintro _ _ _ ⟨⟩
      rw [hstate]
      rfl
    split_ifs at hrest
    · cases hrest
      exact hw.setSession hx _ (hgranted _ _) (by rintro _ _ _ ⟨⟩; exact hcreated)
    · obtain ⟨file, hfile, hrest⟩ := Option.bind_eq_some_iff.mp hrest
      dsimp only at hrest
      split_ifs at hrest
      · cases hrest
        exact (hw.setFile _ _).setSession hx _ (hgranted _ _)
          (by rintro _ _ _ ⟨⟩; exact created_setFile hcreated)
      · cases hrest
        exact hw.setSession hx .failed (by rintro _ ⟨⟩) (by rintro _ _ _ ⟨⟩)
  · cases hrest

theorem step (hw : w.FilesInv) {m : Move} (hawaits : w.AwaitsCreation m)
    (h : w.step m = some (w', es)) : w'.FilesInv ∧ GrantsRight w'.Created es := by
  cases m with
  | store blobs nodeId =>
    exact (hw.begin blobs nodeId).serve (a := .call _) trivial (by rintro _ _ ⟨⟩) h
  | openFile session =>
    obtain ⟨w'', hopen, heq⟩ := Option.map_eq_some_iff.mp h
    cases heq
    exact ⟨hw.openFile hopen, by rintro _ ⟨⟩⟩
  | write session n =>
    obtain ⟨w'', hwrite, heq⟩ := Option.map_eq_some_iff.mp h
    cases heq
    exact ⟨hw.write hwrite, by rintro _ ⟨⟩⟩
  | unlock session =>
    obtain ⟨x, hx, hrest⟩ := Option.bind_eq_some_iff.mp h
    split at hrest
    · rename_i blob position hstate
      have hcreated := hw.opened session x hx blob position [] hstate
      have hnext := hw.setSession hx (.unlocking blob w.server.nextCall) (by rintro _ ⟨⟩)
        (by rintro _ _ _ ⟨⟩)
      exact hnext.serve (a := .call _) trivial (by rintro _ _ ⟨⟩; exact hcreated) hrest
    · cases hrest
  | keepAlive fileId => exact hw.serve (a := .call _) trivial (by rintro _ _ ⟨⟩) h
  | lookup key => exact hw.serve (a := .call _) trivial (by rintro _ _ ⟨⟩) h
  | serve a =>
    cases a with
    | call request => cases h
    | execute t => exact hw.serve hawaits (by rintro _ _ ⟨⟩) h
    | resume t choice => exact hw.serve hawaits (by rintro _ _ ⟨⟩) h
    | tick cleaner => exact hw.serve hawaits (by rintro _ _ ⟨⟩) h
    | receive cleaner => exact hw.serve hawaits (by rintro _ _ ⟨⟩) h
    | restart config => exact hw.serve hawaits (by rintro _ _ ⟨⟩) h

end FilesInv

theorem filesInv_start {config : BlobStorageConfig} (h : start config = some w) : w.FilesInv := by
  obtain ⟨s, hboot, rfl⟩ := Option.map_eq_some_iff.mp h
  refine ⟨filesHeld_boot ?_ ?_ ?_ hboot, by simp, by simp⟩
  · intro fields hfields
    simp at hfields
  · intro fileId info hinfo
    simp [Redis.storedFile] at hinfo
  · intro fileId hsome
    simp [Redis.storedFile] at hsome

/-- In a run in which no lock is lost before its file is created, a client that is told to open a
file finds it. -/
theorem created_of_run {config : BlobStorageConfig} {w₀ w : Store} {es : List Event}
    (hstart : start config = some w₀) (hrun : Run Store.step AwaitsCreation w₀ es w) :
    ∀ e ∈ es, ∀ blob, e.response = .offset blob → blob.needsCreation = false →
      blob.fileName ∈ w.files := by
  have hinv : w.FilesInv ∧ GrantsRight w.Created es := by
    refine hrun.invariantShown (I := fun shown w => w.FilesInv ∧ GrantsRight w.Created shown)
      ⟨filesInv_start hstart, by rintro _ ⟨⟩⟩ ?_
    rintro shown w m w' es' ⟨hw, hshown⟩ hawaits hstep
    obtain ⟨hw', hgrants⟩ := hw.step hawaits hstep
    refine ⟨hw', fun e he blob hblob => ?_⟩
    rcases List.mem_append.mp he with he | he
    · exact rightAbout_mono (fun _ => created_step hstep) (hshown e he blob hblob)
    · exact hgrants e he blob hblob
  intro e he blob hblob hopens
  obtain ⟨hname, hcreated⟩ := hinv.2 e he blob hblob
  rw [hname, FiniteMap.mem_iff_getElem?, ← Option.isSome_iff_exists]
  exact hcreated hopens

/-- No lock expires while its file is not created, and there is no restart. -/
def ExpiresCreated (w : Store) : Move → Prop
  | .serve (.tick cleaner) => ∀ c ∈ w.server.cleaners[cleaner]?,
    (w.server.blob.lockedFiles[c.fileId]?).isSome → w.Created c.fileId
  | .serve (.restart _) => False
  | _ => True

instance (w : Store) : (m : Move) → Decidable (w.ExpiresCreated m)
  | .serve (.tick cleaner) => inferInstanceAs (Decidable (∀ c ∈ w.server.cleaners[cleaner]?,
      (w.server.blob.lockedFiles[c.fileId]?).isSome → w.Created c.fileId))
  | .serve (.restart _) => isFalse id
  | .serve (.call _) | .serve (.execute _) | .serve (.resume _ _) | .serve (.receive _) =>
    isTrue trivial
  | .store _ _ | .openFile _ | .write _ _ | .unlock _ | .keepAlive _ | .lookup _ => isTrue trivial

theorem ExpiresCreated.awaits {m : Move} (h : w.ExpiresCreated m) : w.AwaitsCreation m := by
  cases m with
  | serve a =>
    cases a with
    | tick cleaner => exact h
    | restart config => exact h.elim
    | _ => trivial
  | _ => trivial

/-- The calls of a creation, up to its answer. -/
def creating (key : String) (session : CallId) (created : Bool) : List Move :=
  [.store [⟨key, [1]⟩] "node", .serve (.execute session), .serve (.resume session 0),
    .serve (.resume session 0)] ++
  (if created then [.serve (.execute session), .serve (.resume session 0)] else []) ++
  [.serve (.execute session), .serve (.resume session 0), .serve (.execute session),
    .serve (.resume session 0)]

/-- The slots that two creations get. -/
def twoSlots : List Event :=
  [⟨0, .createAndLock [⟨"a", 1⟩] "node", .offset ⟨0, "blob_0.bin", 0, true⟩⟩,
    ⟨1, .createAndLock [⟨"b", 1⟩] "node", .offset ⟨0, "blob_0.bin", 1, false⟩⟩]

/-- The first client dies when it has created the file. -/
theorem created_of_run_opened : ∃ w₀ w, start ⟨1⟩ = some w₀ ∧
    Run Store.step AwaitsCreation w₀ twoSlots w ∧ "blob_0.bin" ∈ w.files := by
  obtain ⟨w₀, hstart, hexec⟩ := Option.bind_eq_some_iff.mp
    (show ((start ⟨1⟩).bind fun w₀ => (exec Store.step ExpiresCreated w₀
      (creating "a" 0 true ++ [.openFile 0, .serve (.tick 0)] ++ creating "b" 1 false)).map
        fun r => r.2) = some twoSlots by decide +kernel)
  obtain ⟨w, es, hrun, rfl⟩ := exists_run_of_exec hexec
  have hawaits := hrun.mono fun _ _ => ExpiresCreated.awaits
  exact ⟨w₀, w, hstart, hawaits,
    created_of_run hstart hawaits _ (List.mem_cons_of_mem _ List.mem_cons_self) _ rfl rfl⟩

/-- The first client dies before it has created the file, and the second is told to open it. -/
theorem not_created_died : ∃ w₀ w, start ⟨1⟩ = some w₀ ∧
    Run Store.step (fun _ _ => True) w₀ twoSlots w ∧ "blob_0.bin" ∉ w.files := by
  obtain ⟨w₀, hstart, hexec⟩ := Option.bind_eq_some_iff.mp
    (show ((start ⟨1⟩).bind fun w₀ => (exec Store.step (fun _ _ => True) w₀
      (creating "a" 0 true ++ [.serve (.tick 0)] ++ creating "b" 1 false)).map
        fun r => (r.2, decide ("blob_0.bin" ∈ r.1.files))) = some (twoSlots, false) by
      decide +kernel)
  obtain ⟨w, es, hrun, hend⟩ := exists_run_of_exec hexec
  simp only [Prod.mk.injEq, decide_eq_false_iff_not] at hend
  obtain ⟨rfl, hfile⟩ := hend
  exact ⟨w₀, w, hstart, hrun, hfile⟩

end Store

end BlobIdxClient

end NpmFollower
