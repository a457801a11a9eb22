import NpmFollower.BlobIdxServer.Blob

/-! # The calls of the blob index

A call runs from one await to the next without interruption. Between the two
halves of a Redis await other calls may run, before and after Redis executes the
command. A server is its memory, Redis, the calls in flight and the cleaners.
-/

namespace NpmFollower.BlobIdxServer

open Std PostgresDb

inductive Request where
  | createAndLock (entries : List BlobEntry) (nodeId : String)
  | createUnlock (fileId : UInt32) (nodeId : String)
  | keepAliveLock (fileId : UInt32)
  | lookup (key : String)
deriving DecidableEq

inductive Response where
  | offset (o : BlobOffset)
  | unlocked
  | keptAlive
  | slice (s : BlobStorageSlice)
  | error (e : BlobError)
  | panicked
deriving DecidableEq

/-- What a call does when Redis has answered. -/
inductive Continuation where
  /-- `create_and_lock` checks its keys: this one, and then the rest. -/
  | checkKey (entries : List BlobEntry) (nodeId : String) (key : String) (rest : List String)
  /-- `create_and_lock` has added a new file to the pool. -/
  | addFile (entries : List BlobEntry) (nodeId : String) (fileId : UInt32) (info : FileInfo)
  /-- `create_and_lock` has reserved space in the file. -/
  | setSize (entries : List BlobEntry) (nodeId : String) (fileId : UInt32) (needsCreation : Bool)
      (byteOffset : UInt64) (info : FileInfo)
  /-- `create_and_lock` has put its slices into the map. -/
  | setSlices (offset : BlobOffset) (toSetInRedis : List (String × Value))
  /-- `create_unlock` marks its keys: this one, and then the rest. -/
  | markKey (fileId : UInt32) (key : String) (rest : List String)
      (toSetInRedis : List (String × Value))
  /-- `create_unlock` has marked its keys. -/
  | setWritten (fileId : UInt32) (toSetInRedis : List (String × Value))
  | lookup (key : String)

def Continuation.command : Continuation → Command
  | checkKey _ _ key _ => .get key
  | addFile _ _ _ info => .hset info.fileId info.serialize
  | setSize _ _ _ _ _ info => .hset info.fileId info.serialize
  | setSlices _ toSetInRedis => .setMultiple toSetInRedis
  | markKey _ key _ _ => .get key
  | setWritten _ toSetInRedis => .setMultiple toSetInRedis
  | lookup key => .get key

/-- Where a call waits. -/
inductive Await where
  /-- For Redis, which has executed the command when there is a reply. -/
  | redis (k : Continuation) (reply : Option Reply)
  /-- `create_and_lock` waits for the lock for picking a file. -/
  | fileLock (entries : List BlobEntry) (nodeId : String)
  /-- `create_and_lock` holds that lock and waits for a file to be unlocked. -/
  | unlockNotify (entries : List BlobEntry) (nodeId : String) (fileId : UInt32) (notified : Bool)
  /-- `keep_alive_lock` sends to a cleaner. -/
  | keepAlive (cleaner : CallId)

structure Call where
  request : Request
  await : Await

structure Server where
  blob : BlobStorage
  redis : Redis
  calls : DashMap CallId Call
  cleaners : DashMap CallId Cleaner
  nextCall : CallId

/-- How a call goes on: it waits again, or it returns. -/
inductive Progress where
  | waits (a : Await)
  | returns (r : Response)

def keysOf (entries : List BlobEntry) : List String := entries.map (·.key)

/-- The slices of a batch, one after the other from an offset on. -/
def slicesFrom (fileId : UInt32) (fileName : String) :
    UInt64 → List BlobEntry → List (String × BlobStorageSlice)
  | _, [] => []
  | offset, e :: entries =>
    (e.key, ⟨fileId, fileName, offset, e.numBytes⟩) ::
      slicesFrom fileId fileName (offset + e.numBytes) entries

namespace BlobStorage

def insertKey (b : BlobStorage) (key : String) (l : LockWrapper) : BlobStorage :=
  { b with map := b.map.insert key l }

/-- The key check of `create_and_lock` for a key with an entry in the map. -/
def rejection (b : BlobStorage) (key : String) (l : LockWrapper) : Option BlobError :=
  if l.written then some (.alreadyExists key)
  else if b.lockedFiles.contains l.slice.fileId then some (.alreadyExists key)
  else none

/-- The key checks of `create_and_lock`. The error of `map_lookup` for the reserved key is not
looked at. -/
def checkKeys (b : BlobStorage) (entries : List BlobEntry) (nodeId : String) :
    List String → Progress
  | [] =>
    if (keysOf entries).Nodup then .waits (.fileLock entries nodeId)
    else .returns (.error .duplicateKeys)
  | key :: rest =>
    if key = filePoolKey then b.checkKeys entries nodeId rest
    else
      match b.map[key]? with
      | none => .waits (.redis (.checkKey entries nodeId key rest) none)
      | some l =>
        match b.rejection key l with
        | some e => .returns (.error e)
        | none => b.checkKeys entries nodeId rest

/-- `create_unlock` marks its keys as written. A key without an entry is a panic. -/
def markKeys (b : BlobStorage) (fileId : UInt32) :
    List String → List (String × Value) → BlobStorage × Progress
  | [], toSetInRedis => (b, .waits (.redis (.setWritten fileId toSetInRedis) none))
  | key :: rest, toSetInRedis =>
    if key = filePoolKey then (b, .returns .panicked)
    else
      match b.map[key]? with
      | none => (b, .waits (.redis (.markKey fileId key rest toSetInRedis) none))
      | some l =>
        let value : LockWrapper := { l with lock := none, written := true }
        (b.insertKey key value).markKeys fileId rest (toSetInRedis ++ [(key, value.serialize)])

def lookupResponse (l : LockWrapper) : Response :=
  if l.written then .slice l.slice else .error .notWritten

def startLookup (b : BlobStorage) (key : String) : Progress :=
  if key = filePoolKey then .returns (.error .prohibitedKey)
  else
    match b.map[key]? with
    | some l => .returns (lookupResponse l)
    | none => .waits (.redis (.lookup key) none)

/-- `create_and_lock` reserves space for its entries in the file. -/
def reserve (b : BlobStorage) (entries : List BlobEntry) (nodeId : String) (fileId : UInt32)
    (needsCreation : Bool) : BlobStorage × Progress :=
  match b.filePool[fileId]? with
  | none => (b, .returns .panicked)
  | some info =>
    let fInfo : FileInfo :=
      { info with size := entries.foldl (fun size e => size + e.numBytes) info.size }
    ({ b with filePool := b.filePool.insert fileId fInfo },
      .waits (.redis (.setSize entries nodeId fileId needsCreation info.size fInfo) none))

/-- `create_and_lock` puts its slices into the map. -/
def publish (b : BlobStorage) (entries : List BlobEntry) (nodeId : String) (fileId : UInt32)
    (needsCreation : Bool) (byteOffset : UInt64) (fInfo : FileInfo) : BlobStorage × Progress :=
  let wrappers := (slicesFrom fileId fInfo.fileName byteOffset entries).map fun e =>
    (e.1, (⟨e.2, false, some nodeId⟩ : LockWrapper))
  (wrappers.foldl (fun b e => b.insertKey e.1 e.2) b,
    .waits (.redis (.setSlices ⟨fileId, fInfo.fileName, byteOffset, needsCreation⟩
      (wrappers.map fun e => (e.1, e.2.serialize))) none))

/-- The files that `create_and_lock` may pick. -/
def unlockedFiles (b : BlobStorage) : List UInt32 :=
  b.filePool.keys.filter fun fileId => ¬b.lockedFiles.contains fileId

end BlobStorage

/-- `notify_waiters` of a file reaches the calls that wait for it. -/
def Call.notify (fileId : UInt32) (c : Call) : Call :=
  match c.await with
  | .unlockNotify entries nodeId fileId' notified =>
    { c with await := .unlockNotify entries nodeId fileId' (notified || fileId' == fileId) }
  | _ => c

namespace Server

variable (s : Server) (t : CallId)

def withBlob (r : BlobStorage × Progress) : Server × Progress := ({ s with blob := r.1 }, r.2)

def notifyWaiters (fileId : UInt32) : Server :=
  { s with calls := s.calls.map fun _ c => c.notify fileId }

/-- `spawn_lock_cleaner`. The instance that it replaces, if any, goes on without a sender. -/
def spawnLockCleaner (fileId : UInt32) : Server :=
  { s with
    cleaners := s.cleaners.insert t ⟨fileId, false⟩
    blob := { s.blob with cleanupTasks := s.blob.cleanupTasks.insert fileId t } }

def insertLock (fileId : UInt32) (nodeId : String) (keys : List String) : Server :=
  { s with blob := { s.blob with lockedFiles := s.blob.lockedFiles.insert fileId ⟨nodeId, keys, t⟩ } }

def setFileLock (holder : Option CallId) : Server :=
  { s with blob := { s.blob with fileLock := holder } }

/-- `create_and_lock` locks the file it has picked, and goes on to its next await. -/
def lockFile (entries : List BlobEntry) (nodeId : String) (fileId : UInt32) (needsCreation : Bool) :
    Server × Progress :=
  let locked := ((s.insertLock t fileId nodeId (keysOf entries)).spawnLockCleaner t fileId).setFileLock
    none
  match locked.blob.filePool[fileId]? with
  | none => (s.setFileLock none, .returns .panicked)
  | some info =>
    if needsCreation then (locked, .waits (.redis (.addFile entries nodeId fileId info) none))
    else locked.withBlob (locked.blob.reserve entries nodeId fileId needsCreation)

/-- `create_and_lock` picks a file. The random choice is given; `none` is a choice that cannot
happen. -/
def pickFile (entries : List BlobEntry) (nodeId : String) (choice : UInt32) :
    Option (Server × Progress) :=
  if UInt32.ofNat s.blob.filePool.size ≠ s.blob.config.maxFiles then
    let fileId := UInt32.ofNat s.blob.filePool.size
    let info : FileInfo := ⟨0, fileId, "blob_" ++ toString fileId.toNat ++ ".bin"⟩
    let added := { s with blob := { s.blob with filePool := s.blob.filePool.insert fileId info } }
    some (added.lockFile t entries nodeId fileId true)
  else if s.blob.unlockedFiles.isEmpty then
    if s.blob.config.maxFiles = 0 then some (s, .returns .panicked)
    else if choice < s.blob.config.maxFiles then
      match s.blob.filePool[choice]? with
      | none => some (s, .returns .panicked)
      | some _ => some (s.setFileLock (some t), .waits (.unlockNotify entries nodeId choice false))
    else none
  else if choice ∈ s.blob.unlockedFiles then some (s.lockFile t entries nodeId choice false)
  else none

/-- The first part of `create_unlock`. -/
def startUnlock (fileId : UInt32) (nodeId : String) : Server × Progress :=
  match s.blob.lockedFiles[fileId]? with
  | none => (s, .returns (.error .createNotLocked))
  | some lock =>
    let removed := { s.blob with lockedFiles := s.blob.lockedFiles.erase fileId }
    if lock.nodeId ≠ nodeId then s.withBlob (removed, .returns (.error .wrongNode))
    else s.withBlob (removed.markKeys fileId lock.keys [])

/-- The last part of `create_unlock`. -/
def finishUnlock (fileId : UInt32) : Server × Progress :=
  let aborted :=
    match s.blob.cleanupTasks[fileId]? with
    | none => s
    | some c =>
      { s with
        cleaners := s.cleaners.erase c
        blob := { s.blob with cleanupTasks := s.blob.cleanupTasks.erase fileId } }
  match aborted.blob.filePool[fileId]? with
  | none => (aborted, .returns .panicked)
  | some _ => (aborted.notifyWaiters fileId, .returns .unlocked)

def startKeepAlive (fileId : UInt32) : Progress :=
  if s.blob.lockedFiles.contains fileId then
    match s.blob.cleanupTasks[fileId]? with
    | none => .returns .panicked
    | some c => .waits (.keepAlive c)
  else .returns (.error .createNotLocked)

def start : Request → Server × Progress
  | .createAndLock entries nodeId =>
    (s, s.blob.checkKeys entries nodeId (keysOf entries))
  | .createUnlock fileId nodeId => s.startUnlock fileId nodeId
  | .keepAliveLock fileId => (s, s.startKeepAlive fileId)
  | .lookup key => (s, s.blob.startLookup key)

/-- The text of a key that Redis has answered with, read into the map; `none` is a panic. -/
def load (key : String) : Reply → Option (Option BlobStorage)
  | .text none => some none
  | .text (some v) => (LockWrapper.deserialize v).map fun l => some (s.blob.insertKey key l)
  | _ => none

/-- A call goes on with the answer of Redis. -/
def resumeRedis (reply : Reply) : Continuation → Server × Progress
  | .checkKey entries nodeId key rest =>
    match s.load key reply with
    | none => (s, .returns .panicked)
    | some none => (s, s.blob.checkKeys entries nodeId rest)
    | some (some b) => s.withBlob (b, b.checkKeys entries nodeId (key :: rest))
  | .markKey fileId key rest toSetInRedis =>
    match s.load key reply with
    | none => (s, .returns .panicked)
    | some none => (s, .returns .panicked)
    | some (some b) => s.withBlob (b.markKeys fileId (key :: rest) toSetInRedis)
  | .lookup key =>
    match s.load key reply with
    | none => (s, .returns .panicked)
    | some none => (s, .returns (.error (.doesNotExist key)))
    | some (some b) => s.withBlob (b, b.startLookup key)
  | .addFile entries nodeId fileId _ =>
    match reply with
    | .ok => s.withBlob (s.blob.reserve entries nodeId fileId true)
    | _ => (s, .returns .panicked)
  | .setSize entries nodeId fileId needsCreation byteOffset info =>
    match reply with
    | .ok => s.withBlob (s.blob.publish entries nodeId fileId needsCreation byteOffset info)
    | _ => (s, .returns .panicked)
  | .setSlices offset _ =>
    match reply with
    | .ok => (s, .returns (.offset offset))
    | _ => (s, .returns .panicked)
  | .setWritten fileId _ =>
    match reply with
    | .ok => s.finishUnlock fileId
    | _ => (s, .returns .panicked)

/-- A call goes on from its await; `none` where it still has to wait. -/
def resume (choice : UInt32) : Await → Option (Server × Progress)
  | .redis k reply => reply.map fun reply => s.resumeRedis reply k
  | .fileLock entries nodeId =>
    if s.blob.fileLock.isNone then s.pickFile t entries nodeId choice else none
  | .unlockNotify entries nodeId fileId notified =>
    if notified then some (s.lockFile t entries nodeId fileId false) else none
  | .keepAlive cleaner =>
    match s.cleaners[cleaner]? with
    | none => some (s, .returns (.error .lockExpired))
    | some c =>
      if c.keepAlive then none
      else some ({ s with cleaners := s.cleaners.insert cleaner { c with keepAlive := true } },
        .returns .keptAlive)

/-- The timer of a cleaner expires. -/
def tick (cleaner : CallId) : Option Server :=
  (s.cleaners[cleaner]?).map fun c =>
    let stopped := { s with cleaners := s.cleaners.erase cleaner }
    if s.blob.lockedFiles.contains c.fileId then
      ({ stopped with blob := { s.blob with
          lockedFiles := s.blob.lockedFiles.erase c.fileId } } : Server).notifyWaiters c.fileId
    else stopped

end Server

/-- What the clients see: a call has returned. -/
structure Event where
  call : CallId
  request : Request
  response : Response
deriving DecidableEq

/-- What happens next: a client calls, Redis executes the command of a call, a call goes on, the
timer of a cleaner expires, a cleaner takes the message from its channel, or the server is started
again. -/
inductive Action where
  | call (r : Request)
  | execute (t : CallId)
  | resume (t : CallId) (choice : UInt32)
  | tick (cleaner : CallId)
  | receive (cleaner : CallId)
  | restart (config : BlobStorageConfig)
deriving DecidableEq

namespace Server

def settle (s : Server) (t : CallId) (request : Request) : Progress → Server × List Event
  | .waits a => ({ s with calls := s.calls.insert t ⟨request, a⟩ }, [])
  | .returns r => ({ s with calls := s.calls.erase t }, [⟨t, request, r⟩])

def execute (s : Server) (t : CallId) : Option Server :=
  match s.calls[t]? with
  | some ⟨request, .redis k none⟩ =>
    let (redis, reply) := s.redis.execute k.command
    some { s with redis, calls := s.calls.insert t ⟨request, .redis k (some reply)⟩ }
  | _ => none

/-- A server without calls, started on what Redis holds. -/
def boot (config : BlobStorageConfig) (redis : Redis) (nextCall : CallId) : Option Server :=
  (BlobStorage.init config redis).map fun blob => ⟨blob, redis, ∅, ∅, nextCall⟩

def step (s : Server) : Action → Option (Server × List Event)
  | .call request =>
    let (s', progress) := s.start request
    some ({ s' with nextCall := s.nextCall + 1 }.settle s.nextCall request progress)
  | .execute t => (s.execute t).map fun s' => (s', [])
  | .resume t choice => do
    let c ← s.calls[t]?
    let (s', progress) ← s.resume t choice c.await
    return s'.settle t c.request progress
  | .tick cleaner => (s.tick cleaner).map fun s' => (s', [])
  | .receive cleaner => (s.cleaners[cleaner]?).bind fun c =>
    if c.keepAlive then
      some ({ s with cleaners := s.cleaners.insert cleaner { c with keepAlive := false } }, [])
    else none
  | .restart config => (boot config s.redis s.nextCall).map fun s' => (s', [])

end Server

end NpmFollower.BlobIdxServer
