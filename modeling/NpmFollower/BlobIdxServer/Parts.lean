import NpmFollower.BlobIdxServer.Steps

/-! # The parts of the calls

A step of the server is a part of a call between two awaits, the execution of a
command by Redis, a step of a cleaner or a restart. Every part is listed here
with what it requires and what it does, and every step is one of them.
-/

namespace NpmFollower.BlobIdxServer

open Std PostgresDb

/-- The file with space reserved for a batch. -/
def FileInfo.grow (info : FileInfo) (entries : List BlobEntry) : FileInfo :=
  { info with size := entries.foldl (fun size e => size + e.numBytes) info.size }

/-- The file that `create_and_lock` adds to the pool. -/
def FileInfo.new (fileId : UInt32) : FileInfo :=
  ⟨0, fileId, "blob_" ++ toString fileId.toNat ++ ".bin"⟩

/-- An await without the notification that it may have received. -/
def Await.deaf : Await → Await
  | .unlockNotify entries nodeId fileId _ => .unlockNotify entries nodeId fileId false
  | a => a

namespace Server

variable (s : Server) (t : CallId)

/-- The call waits there, notified or not. -/
def At (a : Await) : Prop := (s.calls[t]?).map (fun c => c.await.deaf) = some a

def insertKey (key : String) (l : LockWrapper) : Server := { s with blob := s.blob.insertKey key l }

def setFile (fileId : UInt32) (info : FileInfo) : Server :=
  { s with blob := { s.blob with filePool := s.blob.filePool.insert fileId info } }

def removeLock (fileId : UInt32) : Server :=
  { s with blob := { s.blob with lockedFiles := s.blob.lockedFiles.erase fileId } }

def acquire (entries : List BlobEntry) (nodeId : String) (fileId : UInt32) : Server :=
  ((s.insertLock t fileId nodeId (keysOf entries)).spawnLockCleaner t fileId).setFileLock none

/-- The cleaner of a file is removed and aborted. -/
def abortCleaner (fileId : UInt32) : Server :=
  match s.blob.cleanupTasks[fileId]? with
  | none => s
  | some c =>
    { s with
      cleaners := s.cleaners.erase c
      blob := { s.blob with cleanupTasks := s.blob.cleanupTasks.erase fileId } }

/-- A part of a call: from its start, or from where it waits. -/
inductive Activity where
  | start (r : Request)
  | resume (a : Await) (choice : UInt32)

/-- The answers of Redis on which a call panics. -/
def Breaks (reply : Reply) : Continuation → Prop
  | .checkKey .. => ∀ v, reply = .text v → ∃ text, v = some text ∧ LockWrapper.deserialize text = none
  | .markKey .. => ∀ v text, reply = .text v → v = some text → LockWrapper.deserialize text = none
  | .lookup _ => ∀ v, reply = .text v → ∃ text, v = some text ∧ LockWrapper.deserialize text = none
  | _ => reply ≠ .ok

/-- What a part of call `t` does to the server, and how the call goes on. -/
inductive Part : Activity → Server → Progress → Prop where
  | check {p : Progress} (hp : s.blob.Checked entries nodeId (keysOf entries) p) :
      Part (.start (.createAndLock entries nodeId)) s p
  | checkAbsent {rest : List String} {p : Progress} (hp : s.blob.Checked entries nodeId rest p) :
      Part (.resume (.redis (.checkKey entries nodeId key rest) (some (.text none))) choice) s p
  | checkLoaded {rest : List String} {p : Progress} {v : Value} {l : LockWrapper}
      (hl : LockWrapper.deserialize v = some l)
      (hp : (s.blob.insertKey key l).Checked entries nodeId (key :: rest) p) :
      Part (.resume (.redis (.checkKey entries nodeId key rest) (some (.text (some v)))) choice)
        (s.insertKey key l) p
  | broken {k : Continuation} {reply : Reply} (hreply : Breaks reply k) :
      Part (.resume (.redis k (some reply)) choice) s (.returns .panicked)
  | pickNew (hlock : s.blob.fileLock = none)
      (hsize : UInt32.ofNat s.blob.filePool.size ≠ s.blob.config.maxFiles)
      (hfile : fileId = UInt32.ofNat s.blob.filePool.size) :
      Part (.resume (.fileLock entries nodeId) choice)
        ((s.setFile fileId (.new fileId)).acquire t entries nodeId fileId)
        (.waits (.redis (.addFile entries nodeId fileId (.new fileId)) none))
  | pickFree {info : FileInfo} (hlock : s.blob.fileLock = none)
      (hsize : UInt32.ofNat s.blob.filePool.size = s.blob.config.maxFiles)
      (hfree : s.blob.lockedFiles[fileId]? = none) (hinfo : s.blob.filePool[fileId]? = some info) :
      Part (.resume (.fileLock entries nodeId) fileId)
        ((s.acquire t entries nodeId fileId).setFile fileId (info.grow entries))
        (.waits (.redis (.setSize entries nodeId fileId false info.size (info.grow entries)) none))
  | pickWait {info : FileInfo} (hlock : s.blob.fileLock = none)
      (hsize : UInt32.ofNat s.blob.filePool.size = s.blob.config.maxFiles)
      (hinfo : s.blob.filePool[fileId]? = some info) :
      Part (.resume (.fileLock entries nodeId) choice) (s.setFileLock (some t))
        (.waits (.unlockNotify entries nodeId fileId false))
  | pickNone (hlock : s.blob.fileLock = none)
      (hsize : UInt32.ofNat s.blob.filePool.size = s.blob.config.maxFiles)
      (hnone : s.blob.config.maxFiles = 0 ∨
        ∃ choice < s.blob.config.maxFiles, s.blob.filePool[choice]? = none) :
      Part (.resume (.fileLock entries nodeId) choice) s (.returns .panicked)
  | notified {info : FileInfo} (hinfo : s.blob.filePool[fileId]? = some info) :
      Part (.resume (.unlockNotify entries nodeId fileId true) choice)
        ((s.acquire t entries nodeId fileId).setFile fileId (info.grow entries))
        (.waits (.redis (.setSize entries nodeId fileId false info.size (info.grow entries)) none))
  | notifiedNone (hnone : s.blob.filePool[fileId]? = none) :
      Part (.resume (.unlockNotify entries nodeId fileId true) choice) (s.setFileLock none)
        (.returns .panicked)
  | reserve {added info : FileInfo} (hinfo : s.blob.filePool[fileId]? = some info) :
      Part (.resume (.redis (.addFile entries nodeId fileId added) (some .ok)) choice)
        (s.setFile fileId (info.grow entries))
        (.waits (.redis (.setSize entries nodeId fileId true info.size (info.grow entries)) none))
  | reserveNone {added : FileInfo} (hnone : s.blob.filePool[fileId]? = none) :
      Part (.resume (.redis (.addFile entries nodeId fileId added) (some .ok)) choice) s (.returns .panicked)
  | publish (needsCreation : Bool) (byteOffset : UInt64) (info : FileInfo) :
      Part (.resume (.redis (.setSize entries nodeId fileId needsCreation byteOffset info) (some .ok)) choice)
        (s.withBlob (s.blob.publish entries nodeId fileId needsCreation byteOffset info)).1
        (s.blob.publish entries nodeId fileId needsCreation byteOffset info).2
  | created (o : BlobOffset) (toSetInRedis : List (String × Value)) :
      Part (.resume (.redis (.setSlices o toSetInRedis) (some .ok)) choice) s (.returns (.offset o))
  | notLocked (hlock : s.blob.lockedFiles[fileId]? = none) :
      Part (.start (.createUnlock fileId nodeId)) s (.returns (.error .createNotLocked))
  | wrongNode {lock : FileLock} (hlock : s.blob.lockedFiles[fileId]? = some lock)
      (hnode : lock.nodeId ≠ nodeId) :
      Part (.start (.createUnlock fileId nodeId)) (s.removeLock fileId)
        (.returns (.error .wrongNode))
  | unlock {lock : FileLock} (hlock : s.blob.lockedFiles[fileId]? = some lock)
      (hnode : lock.nodeId = nodeId) :
      Part (.start (.createUnlock fileId nodeId))
        ((s.removeLock fileId).withBlob ((s.removeLock fileId).blob.markKeys fileId lock.keys [])).1
        ((s.removeLock fileId).blob.markKeys fileId lock.keys []).2
  | markLoaded {rest : List String} {toSetInRedis : List (String × Value)} {v : Value}
      {l : LockWrapper} (hl : LockWrapper.deserialize v = some l) :
      Part (.resume (.redis (.markKey fileId key rest toSetInRedis) (some (.text (some v)))) choice)
        (s.withBlob ((s.blob.insertKey key l).markKeys fileId (key :: rest) toSetInRedis)).1
        ((s.blob.insertKey key l).markKeys fileId (key :: rest) toSetInRedis).2
  | unlocked {toSetInRedis : List (String × Value)} {info : FileInfo}
      (hinfo : s.blob.filePool[fileId]? = some info) :
      Part (.resume (.redis (.setWritten fileId toSetInRedis) (some .ok)) choice)
        ((s.abortCleaner fileId).notifyWaiters fileId) (.returns .unlocked)
  | unlockedNone {toSetInRedis : List (String × Value)} (hnone : s.blob.filePool[fileId]? = none) :
      Part (.resume (.redis (.setWritten fileId toSetInRedis) (some .ok)) choice) (s.abortCleaner fileId)
        (.returns .panicked)
  | keepAliveNone (hlock : s.blob.lockedFiles[fileId]? = none) :
      Part (.start (.keepAliveLock fileId)) s (.returns (.error .createNotLocked))
  | keepAlivePanic {lock : FileLock} (hlock : s.blob.lockedFiles[fileId]? = some lock)
      (hnone : s.blob.cleanupTasks[fileId]? = none) :
      Part (.start (.keepAliveLock fileId)) s (.returns .panicked)
  | keepAliveSend {lock : FileLock} {cleaner : CallId}
      (hlock : s.blob.lockedFiles[fileId]? = some lock)
      (hcleaner : s.blob.cleanupTasks[fileId]? = some cleaner) :
      Part (.start (.keepAliveLock fileId)) s (.waits (.keepAlive cleaner))
  | keepAliveExpired {cleaner : CallId} (hnone : s.cleaners[cleaner]? = none) :
      Part (.resume (.keepAlive cleaner) choice) s (.returns (.error .lockExpired))
  | keepAliveSent {cleaner : CallId} {c : Cleaner} (hcleaner : s.cleaners[cleaner]? = some c) :
      Part (.resume (.keepAlive cleaner) choice)
        { s with cleaners := s.cleaners.insert cleaner ⟨c.fileId, true⟩ } (.returns .keptAlive)
  | lookup : Part (.start (.lookup key)) s (s.blob.startLookup key)
  | lookupAbsent :
      Part (.resume (.redis (.lookup key) (some (.text none))) choice) s
        (.returns (.error (.doesNotExist key)))
  | lookupLoaded {v : Value} {l : LockWrapper} (hl : LockWrapper.deserialize v = some l) :
      Part (.resume (.redis (.lookup key) (some (.text (some v)))) choice) (s.insertKey key l)
        ((s.blob.insertKey key l).startLookup key)

/-- The part of a call that an action runs, and the number of the next call after it. -/
inductive Runs : Action → CallId → Request → Activity → CallId → Prop where
  | start (request : Request) :
      Runs (.call request) s.nextCall request (.start request) (s.nextCall + 1)
  | resume {t : CallId} {choice : UInt32} {c : Call} (hcall : s.calls[t]? = some c) :
      Runs (.resume t choice) t c.request (.resume c.await choice) s.nextCall

/-- The server after a part of a call, with the call where it has got. -/
def after (s₁ : Server) (t : CallId) (request : Request) (next : CallId) (p : Progress) : Server :=
  (({ s₁ with nextCall := next } : Server).settle t request p).1

/-- The server after Redis has executed the command of a call. -/
def executed (request : Request) (k : Continuation) : Server :=
  { s with
    redis := (s.redis.execute k.command).1
    calls := s.calls.insert t ⟨request, .redis k (some (s.redis.execute k.command).2)⟩ }

/-- A step of the server. -/
inductive Step : Action → Server → List Event → Prop where
  | part {action : Action} {t : CallId} {request : Request} {activity : Activity} {next : CallId}
      {s₁ : Server} {p : Progress} (hruns : Runs s action t request activity next)
      (part : Part s t activity s₁ p) :
      Step action (s₁.after t request next p) (({ s₁ with nextCall := next } : Server).settle t request p).2
  | execute {t : CallId} {request : Request} {k : Continuation}
      (hcall : s.calls[t]? = some ⟨request, .redis k none⟩) :
      Step (.execute t) (s.executed t request k) []
  | expire {cleaner : CallId} {c : Cleaner} {lock : FileLock}
      (hcleaner : s.cleaners[cleaner]? = some c)
      (hlock : s.blob.lockedFiles[c.fileId]? = some lock) :
      Step (.tick cleaner)
        ((({ s with cleaners := s.cleaners.erase cleaner } : Server).removeLock c.fileId).notifyWaiters
          c.fileId) []
  | stop {cleaner : CallId} {c : Cleaner} (hcleaner : s.cleaners[cleaner]? = some c)
      (hlock : s.blob.lockedFiles[c.fileId]? = none) :
      Step (.tick cleaner) { s with cleaners := s.cleaners.erase cleaner } []
  | receive {cleaner : CallId} {c : Cleaner} (hcleaner : s.cleaners[cleaner]? = some c) :
      Step (.receive cleaner)
        { s with cleaners := s.cleaners.insert cleaner ⟨c.fileId, false⟩ } []
  | restart {config : BlobStorageConfig} {s' : Server}
      (hboot : boot config s.redis s.nextCall = some s') : Step (.restart config) s' []

variable {s t}

theorem contains_lockedFiles {fileId : UInt32} :
    s.blob.lockedFiles.contains fileId = s.blob.lockedFiles[fileId]?.isSome :=
  ExtTreeMap.contains_eq_isSome_getElem?

theorem part_start (r : Request) : Part s t (.start r) (s.start r).1 (s.start r).2 := by
  cases r with
  | createAndLock entries nodeId => exact .check (BlobStorage.checkKeys_checked _ _ _)
  | lookup key => exact .lookup
  | keepAliveLock fileId =>
    rw [start, startKeepAlive, contains_lockedFiles]
    cases hlock : s.blob.lockedFiles[fileId]? with
    | none => exact .keepAliveNone hlock
    | some lock =>
      cases hcleaner : s.blob.cleanupTasks[fileId]? with
      | none => exact .keepAlivePanic hlock hcleaner
      | some cleaner => exact .keepAliveSend hlock hcleaner
  | createUnlock fileId nodeId =>
    rw [start, startUnlock]
    cases hlock : s.blob.lockedFiles[fileId]? with
    | none => exact .notLocked hlock
    | some lock =>
      dsimp only
      split_ifs with hnode
      · exact .wrongNode hlock hnode
      · exact .unlock hlock (not_not.mp hnode)

variable {entries : List BlobEntry} {nodeId : String} {fileId : UInt32} {info : FileInfo}

theorem lockFile_eq (hinfo : s.blob.filePool[fileId]? = some info) (needsCreation : Bool) :
    s.lockFile t entries nodeId fileId needsCreation =
      if needsCreation then
        (s.acquire t entries nodeId fileId, .waits (.redis (.addFile entries nodeId fileId info) none))
      else ((s.acquire t entries nodeId fileId).setFile fileId (info.grow entries),
        .waits (.redis (.setSize entries nodeId fileId false info.size (info.grow entries)) none)) := by
  have hacquired : (s.acquire t entries nodeId fileId).blob.filePool[fileId]? = some info := hinfo
  rw [acquire] at hacquired
  cases needsCreation <;> simp only [lockFile, hacquired, BlobStorage.reserve] <;> rfl

theorem lockFile_none (hnone : s.blob.filePool[fileId]? = none) (needsCreation : Bool) :
    s.lockFile t entries nodeId fileId needsCreation = (s.setFileLock none, .returns .panicked) := by
  have hacquired : (s.acquire t entries nodeId fileId).blob.filePool[fileId]? = none := hnone
  rw [acquire] at hacquired
  simp only [lockFile, hacquired]

theorem mem_unlockedFiles (h : fileId ∈ s.blob.unlockedFiles) :
    s.blob.lockedFiles[fileId]? = none ∧ ∃ info, s.blob.filePool[fileId]? = some info := by
  rw [BlobStorage.unlockedFiles, List.mem_filter, ExtTreeMap.mem_keys,
    contains_lockedFiles] at h
  refine ⟨by simpa using h.2, Option.isSome_iff_exists.mp ?_⟩
  rw [← ExtTreeMap.contains_eq_isSome_getElem?]
  exact h.1

theorem part_pickFile {choice : UInt32} {r : Server × Progress} (hlock : s.blob.fileLock = none)
    (h : s.pickFile t entries nodeId choice = some r) :
    Part s t (.resume (.fileLock entries nodeId) choice) r.1 r.2 := by
  rw [pickFile] at h
  split_ifs at h with hsize hnone hzero hchoice hfree
  · cases h
    have hinfo : (s.setFile (.ofNat s.blob.filePool.size)
        (.new (.ofNat s.blob.filePool.size))).blob.filePool[UInt32.ofNat s.blob.filePool.size]? =
          some (.new (.ofNat s.blob.filePool.size)) := ExtTreeMap.getElem?_insert_self
    change Part s t _ (lockFile (s.setFile _ (.new _)) t entries nodeId _ true).1
      (lockFile (s.setFile _ (.new _)) t entries nodeId _ true).2
    rw [lockFile_eq hinfo true, if_pos rfl]
    exact .pickNew hlock hsize rfl
  · cases h
    exact .pickNone hlock (not_not.mp hsize) (.inl hzero)
  · cases hinfo : s.blob.filePool[choice]? with
    | none =>
      rw [hinfo] at h
      cases h
      exact .pickNone hlock (not_not.mp hsize) (.inr ⟨choice, hchoice, hinfo⟩)
    | some info =>
      rw [hinfo] at h
      cases h
      exact .pickWait hlock (not_not.mp hsize) hinfo
  · cases h
    obtain ⟨hunlocked, info, hinfo⟩ := mem_unlockedFiles hfree
    rw [lockFile_eq hinfo false, if_neg Bool.false_ne_true]
    exact .pickFree hlock (not_not.mp hsize) hunlocked hinfo

theorem finishUnlock_eq : s.finishUnlock fileId =
    match s.blob.filePool[fileId]? with
    | none => (s.abortCleaner fileId, .returns .panicked)
    | some _ => ((s.abortCleaner fileId).notifyWaiters fileId, .returns .unlocked) := by
  rw [finishUnlock, abortCleaner]
  cases s.blob.cleanupTasks[fileId]? <;> rfl

theorem part_resumeRedis (choice : UInt32) (reply : Reply) (k : Continuation) :
    Part s t (.resume (.redis k (some reply)) choice) (s.resumeRedis reply k).1
      (s.resumeRedis reply k).2 := by
  cases k with
  | checkKey entries nodeId key rest =>
    cases reply with
    | text v =>
      cases v with
      | none => exact .checkAbsent (BlobStorage.checkKeys_checked _ _ _)
      | some v =>
        cases hl : LockWrapper.deserialize v with
        | none =>
          simp only [resumeRedis, load, hl, Option.map_none]
          exact .broken (by rintro _ ⟨⟩; exact ⟨v, rfl, hl⟩)
        | some l =>
          simp only [resumeRedis, load, hl, Option.map_some]
          exact .checkLoaded hl (BlobStorage.checkKeys_checked _ _ _)
    | ok => exact .broken (by rintro _ ⟨⟩)
    | error => exact .broken (by rintro _ ⟨⟩)
  | markKey fileId key rest toSetInRedis =>
    cases reply with
    | text v =>
      cases v with
      | none => exact .broken (by rintro _ _ ⟨⟩ ⟨⟩)
      | some v =>
        cases hl : LockWrapper.deserialize v with
        | none =>
          simp only [resumeRedis, load, hl, Option.map_none]
          exact .broken (by rintro _ _ ⟨⟩ ⟨⟩; exact hl)
        | some l =>
          simp only [resumeRedis, load, hl, Option.map_some]
          exact .markLoaded hl
    | ok => exact .broken (by rintro _ _ ⟨⟩)
    | error => exact .broken (by rintro _ _ ⟨⟩)
  | lookup key =>
    cases reply with
    | text v =>
      cases v with
      | none => exact .lookupAbsent
      | some v =>
        cases hl : LockWrapper.deserialize v with
        | none =>
          simp only [resumeRedis, load, hl, Option.map_none]
          exact .broken (by rintro _ ⟨⟩; exact ⟨v, rfl, hl⟩)
        | some l =>
          simp only [resumeRedis, load, hl, Option.map_some]
          exact .lookupLoaded hl
    | ok => exact .broken (by rintro _ ⟨⟩)
    | error => exact .broken (by rintro _ ⟨⟩)
  | addFile entries nodeId fileId added =>
    cases reply with
    | ok =>
      rw [resumeRedis, BlobStorage.reserve]
      cases hinfo : s.blob.filePool[fileId]? with
      | none => exact .reserveNone hinfo
      | some info => exact .reserve hinfo
    | text v => exact .broken (by rintro ⟨⟩)
    | error => exact .broken (by rintro ⟨⟩)
  | setSize entries nodeId fileId needsCreation byteOffset info =>
    cases reply with
    | ok => exact .publish needsCreation byteOffset info
    | text v => exact .broken (by rintro ⟨⟩)
    | error => exact .broken (by rintro ⟨⟩)
  | setSlices o toSetInRedis =>
    cases reply with
    | ok => exact .created o toSetInRedis
    | text v => exact .broken (by rintro ⟨⟩)
    | error => exact .broken (by rintro ⟨⟩)
  | setWritten fileId toSetInRedis =>
    cases reply with
    | ok =>
      rw [resumeRedis, finishUnlock_eq]
      cases hinfo : s.blob.filePool[fileId]? with
      | none => exact .unlockedNone hinfo
      | some info => exact .unlocked hinfo
    | text v => exact .broken (by rintro ⟨⟩)
    | error => exact .broken (by rintro ⟨⟩)

theorem part_resume {choice : UInt32} {a : Await} {r : Server × Progress}
    (h : s.resume t choice a = some r) : Part s t (.resume a choice) r.1 r.2 := by
  cases a with
  | redis k reply =>
    obtain ⟨reply, rfl, rfl⟩ := Option.map_eq_some_iff.mp h
    exact part_resumeRedis choice reply k
  | fileLock entries nodeId =>
    rw [resume] at h
    split_ifs at h with hlock
    exact part_pickFile (Option.isNone_iff_eq_none.mp hlock) h
  | unlockNotify entries nodeId fileId notified =>
    rw [resume] at h
    split_ifs at h with hnotified
    cases h
    subst hnotified
    cases hinfo : s.blob.filePool[fileId]? with
    | none =>
      rw [lockFile_none hinfo]
      exact .notifiedNone hinfo
    | some info =>
      rw [lockFile_eq hinfo false, if_neg Bool.false_ne_true]
      exact .notified hinfo
  | keepAlive cleaner =>
    rw [resume] at h
    cases hcleaner : s.cleaners[cleaner]? with
    | none =>
      rw [hcleaner] at h
      cases h
      exact .keepAliveExpired hcleaner
    | some c =>
      rw [hcleaner] at h
      dsimp only at h
      split_ifs at h
      cases h
      exact .keepAliveSent hcleaner

section Frame

variable {act : Activity} {s₁ : Server} {p : Progress} {t' : CallId} {a : Await}

theorem abortCleaner_eq (fileId : UInt32) : s.abortCleaner fileId =
    { s with
      cleaners := (s.abortCleaner fileId).cleaners
      blob := { s.blob with cleanupTasks := (s.abortCleaner fileId).blob.cleanupTasks } } := by
  rw [abortCleaner]
  cases s.blob.cleanupTasks[fileId]? <;> rfl

theorem Part.redis_eq (h : Part s t act s₁ p) : s₁.redis = s.redis := by
  cases h with
  | unlocked => rw [abortCleaner_eq]; rfl
  | unlockedNone => rw [abortCleaner_eq]
  | _ => rfl

theorem Part.nextCall_eq (h : Part s t act s₁ p) : s₁.nextCall = s.nextCall := by
  cases h with
  | unlocked => rw [abortCleaner_eq]; rfl
  | unlockedNone => rw [abortCleaner_eq]
  | _ => rfl

theorem deaf_notify (fileId : UInt32) (c : Call) : (c.notify fileId).await.deaf = c.await.deaf := by
  obtain ⟨request, await⟩ := c
  cases await <;> rfl

theorem at_notifyWaiters (fileId : UInt32) : (s.notifyWaiters fileId).At t' a ↔ s.At t' a := by
  simp only [At, notifyWaiters, ExtTreeMap.getElem?_map, Option.map_map]
  rw [show (fun c : Call => c.await.deaf) ∘ Call.notify fileId = fun c => c.await.deaf from
    funext (deaf_notify fileId)]

/-- A part of one call leaves the others where they wait, but for notifications. -/
theorem Part.at_iff (h : Part s t act s₁ p) : s₁.At t' a ↔ s.At t' a := by
  cases h with
  | unlocked => rw [at_notifyWaiters, abortCleaner_eq]; rfl
  | unlockedNone => rw [abortCleaner_eq]; rfl
  | _ => rfl

section After

variable {request : Request} {next : CallId}

theorem at_after : (s₁.after t request next p).At t' a ↔
    if t = t' then ∃ a', p = .waits a' ∧ a'.deaf = a else s₁.At t' a := by
  cases p with
  | waits a' =>
    rw [At, after, settle, FiniteMap.getElem?_insert]
    split_ifs <;> simp [At]
  | returns r =>
    rw [At, after, settle, FiniteMap.getElem?_erase]
    split_ifs <;> simp [At]

theorem at_after_waits : (s₁.after t request next (.waits a)).At t a.deaf := by
  rw [at_after, if_pos rfl]
  exact ⟨a, rfl, rfl⟩

@[simp] theorem after_blob : (s₁.after t request next p).blob = s₁.blob := by cases p <;> rfl

@[simp] theorem after_redis : (s₁.after t request next p).redis = s₁.redis := by cases p <;> rfl

@[simp] theorem after_cleaners : (s₁.after t request next p).cleaners = s₁.cleaners := by
  cases p <;> rfl

@[simp] theorem after_nextCall : (s₁.after t request next p).nextCall = next := by cases p <;> rfl

/-- What holds of all calls after a part of one. -/
theorem Part.forall_at {Q : CallId → Await → Prop} (h : Part s t act s₁ p)
    (hothers : ∀ t' a, t ≠ t' → s.At t' a → Q t' a) (hown : ∀ a, p = .waits a → Q t a.deaf) :
    ∀ t' a, (s₁.after t request next p).At t' a → Q t' a := by
  intro t' a hat
  rw [at_after] at hat
  split_ifs at hat with ht
  · obtain ⟨a', hp, rfl⟩ := hat
    exact ht ▸ hown a' hp
  · exact hothers t' a ht (h.at_iff.mp hat)

end After

theorem at_of_call {c : Call} (h : s.calls[t]? = some c) : s.At t c.await.deaf := by
  rw [At, h]
  rfl

theorem Runs.at_resume {action : Action} {request : Request} {choice : UInt32} {next : CallId}
    (h : Runs s action t request (.resume a choice) next) : s.At t a.deaf := by
  cases h with
  | resume hcall => exact at_of_call hcall

/-- What holds of all calls after Redis has executed the command of one. -/
theorem forall_at_execute {Q : CallId → Await → Prop} {redis : Redis} {request : Request}
    {k : Continuation} {reply : Option Reply} (hothers : ∀ t' a, t ≠ t' → s.At t' a → Q t' a)
    (hown : Q t (.redis k reply)) :
    ∀ t' a, ({ s with redis, calls := s.calls.insert t ⟨request, .redis k reply⟩ } : Server).At t' a →
      Q t' a := by
  intro t' a hat
  rw [At, FiniteMap.getElem?_insert] at hat
  split_ifs at hat with ht
  · cases hat
    exact ht ▸ hown
  · exact hothers t' a ht hat

theorem not_at_boot {config : BlobStorageConfig} {redis : Redis} {n : CallId}
    (h : boot config redis n = some s) : ¬s.At t a := by
  obtain ⟨blob, -, rfl⟩ := Option.map_eq_some_iff.mp h
  simp [At]

end Frame

theorem step_call (request : Request) : s.step (.call request) =
    some (({ (s.start request).1 with nextCall := s.nextCall + 1 } : Server).settle s.nextCall
      request (s.start request).2) := rfl

theorem step_execute {request : Request} {k : Continuation}
    (hcall : s.calls[t]? = some ⟨request, .redis k none⟩) :
    s.step (.execute t) = some (s.executed t request k, []) := by
  rw [step, execute, hcall]
  rfl

theorem step_resume {choice : UInt32} {c : Call} {r : Server × Progress}
    (hcall : s.calls[t]? = some c) (hresume : s.resume t choice c.await = some r) :
    s.step (.resume t choice) = some (r.1.settle t c.request r.2) := by
  rw [step, hcall]
  simp [hresume]

/-- Every step of the server is one of the listed steps. -/
theorem step_of_eq {a : Action} {s' : Server} {es : List Event} (h : s.step a = some (s', es)) :
    Step s a s' es := by
  cases a with
  | call request =>
    have hcall := Step.part (Runs.start request) (part_start (s := s) request)
    rw [step_call] at h
    rwa [after, Option.some.inj h] at hcall
  | execute t =>
    obtain ⟨s₁, hs₁, heq⟩ := Option.map_eq_some_iff.mp h
    cases heq
    rw [execute] at hs₁
    split at hs₁
    · rename_i request k hcall
      cases hs₁
      exact .execute hcall
    · cases hs₁
  | resume t choice =>
    obtain ⟨c, hcall, hrest⟩ := Option.bind_eq_some_iff.mp h
    obtain ⟨r, hr, heq⟩ := Option.bind_eq_some_iff.mp hrest
    have hresume : Step s (.resume t choice) _ _ := .part (.resume hcall) (part_resume hr)
    have hnext : ({ r.1 with nextCall := s.nextCall } : Server) = r.1 := by
      rw [← (part_resume hr).nextCall_eq]
    rwa [after, hnext, Option.some.inj heq] at hresume
  | tick cleaner =>
    obtain ⟨s₁, hs₁, heq⟩ := Option.map_eq_some_iff.mp h
    cases heq
    obtain ⟨c, hcleaner, rfl⟩ := Option.map_eq_some_iff.mp hs₁
    dsimp only
    rw [contains_lockedFiles]
    cases hlock : s.blob.lockedFiles[c.fileId]? with
    | none => exact .stop hcleaner hlock
    | some lock => exact .expire hcleaner hlock
  | receive cleaner =>
    obtain ⟨c, hcleaner, hrest⟩ := Option.bind_eq_some_iff.mp h
    split_ifs at hrest
    cases hrest
    exact .receive hcleaner
  | restart config =>
    obtain ⟨s₁, hboot, heq⟩ := Option.map_eq_some_iff.mp h
    cases heq
    exact .restart hboot

/-- The calls in flight have been started. -/
def Fresh (s : Server) : Prop := ∀ t a, s.At t a → t < s.nextCall

theorem Step.fresh {action : Action} {s' : Server} {es : List Event} (h : Step s action s' es)
    (hs : s.Fresh) : s'.Fresh := by
  cases h with
  | part hruns part =>
    rw [Fresh, after_nextCall]
    cases hruns with
    | start request =>
      exact part.forall_at (fun t' a _ hat => (hs t' a hat).trans (Nat.lt_succ_self _))
        fun _ _ => Nat.lt_succ_self _
    | resume hcall => exact part.forall_at (fun t' a _ => hs t' a) fun _ _ => hs _ _ (at_of_call hcall)
  | execute hcall => exact forall_at_execute (fun t' a _ => hs t' a) (hs _ _ (at_of_call hcall))
  | expire => exact fun t a hat => hs t a ((at_notifyWaiters _).mp hat)
  | stop => exact hs
  | receive => exact hs
  | restart hboot => exact fun t a hat => absurd hat (not_at_boot hboot)

theorem fresh_boot {config : BlobStorageConfig} {redis : Redis} {n : CallId}
    (h : boot config redis n = some s) : s.Fresh := fun _ _ hat => absurd hat (not_at_boot h)

end Server

end NpmFollower.BlobIdxServer
