import NpmFollower.BlobIdxServer.Restart
import NpmFollower.BlobIdxServer.TrackedKeys
import NpmFollower.BlobIdxServer.WrittenKeys

/-! # Reservations and their owners

A session is a creation together with the unlock that its client sends later. The
server knows a lock by its file and node only, so the unlock of a session whose lock
has expired may reach the lock of the next one.
-/

namespace NpmFollower.BlobIdxServer

open Std PostgresDb

/-- What the client of a session sends with its unlock. -/
structure Grant where
  fileId : UInt32
  nodeId : String
deriving DecidableEq

/-- The server and the sessions, which are known by their calls of `create_and_lock`. -/
structure Sessions where
  server : Server
  /-- The sessions that have not sent their unlock. -/
  granted : DashMap CallId Grant
  /-- The session that has put a key into the map last. -/
  reservedBy : DashMap String CallId

inductive SessionAction where
  | start (entries : List BlobEntry) (nodeId : String)
  | unlock (session : CallId)
  | keepAlive (fileId : UInt32)
  | lookup (key : String)
  /-- The server goes on. -/
  | serve (a : Action)
deriving DecidableEq

/-- A creation has returned. -/
def grantTo (granted : DashMap CallId Grant) (e : Event) : DashMap CallId Grant :=
  match e.request, e.response with
  | .createAndLock _ nodeId, .offset o => granted.insert e.call ⟨o.fileId, nodeId⟩
  | _, _ => granted

/-- The keys that the call puts into the map with new slices, when Redis has answered. -/
def Await.puts : Await → List String
  | .redis (.setSize entries _ _ _ _ _) (some .ok) => keysOf entries
  | _ => []

namespace Server

/-- The keys that a step puts into the map with new slices, and the call that does it. -/
def reserving (s : Server) : Action → List (String × CallId)
  | .resume t _ =>
    match s.calls[t]? with
    | some c => c.await.puts.map fun key => (key, t)
    | none => []
  | _ => []

end Server

namespace Sessions

def serve (w : Sessions) (a : Action) : Option Sessions :=
  (w.server.step a).map fun r => {
    server := r.1
    granted := r.2.foldl grantTo w.granted
    reservedBy := (w.server.reserving a).foldl (fun m e => m.insert e.1 e.2) w.reservedBy }

def step (w : Sessions) : SessionAction → Option Sessions
  | .start entries nodeId => w.serve (.call (.createAndLock entries nodeId))
  | .unlock session => (w.granted[session]?).bind fun g =>
    ({ w with granted := w.granted.erase session } : Sessions).serve
      (.call (.createUnlock g.fileId g.nodeId))
  | .keepAlive fileId => w.serve (.call (.keepAliveLock fileId))
  | .lookup key => w.serve (.call (.lookup key))
  | .serve (.call _) => none
  | .serve (.restart _) => none
  | .serve a => w.serve a

/-- A server started on an empty Redis. -/
def init (config : BlobStorageConfig) : Option Sessions :=
  (Server.boot config ∅ 0).map fun server => ⟨server, ∅, ∅⟩

/-- A lookup of the key would find it. -/
def Written (w : Sessions) (key : String) : Prop :=
  ∃ slice, Server.lookupAnswer w.server.blob w.server.redis key = .slice slice

/-- The lock of the session has neither been released nor expired. -/
def Holds (w : Sessions) (session : CallId) : Prop :=
  ∃ (fileId : UInt32) (lock : FileLock), w.server.blob.lockedFiles[fileId]? = some lock ∧
    lock.acquisition = session

/-- Only the unlock of a session that holds its lock makes keys written, which are its own, and an
unlock does not take the lock of another session. -/
structure OwnerPublishes (w : Sessions) (a : SessionAction) (w' : Sessions) : Prop where
  published : ∀ key, ¬w.Written key → w'.Written key →
    ∃ session, a = .unlock session ∧ w.reservedBy[key]? = some session ∧ w.Holds session
  released : ∀ session, a = .unlock session → ∀ (fileId : UInt32) (lock : FileLock),
    w.server.blob.lockedFiles[fileId]? = some lock → lock.acquisition ≠ session →
      w'.server.blob.lockedFiles[fileId]? = some lock

end Sessions

namespace Server

/-- The keys that a call puts into the map with new slices are not in a file that another session
has locked: their check would still pass. -/
def ReservesFree (s : Server) (t : CallId) (a : Await) : Prop :=
  ∀ key ∈ a.publishes, key ≠ filePoolKey → ∀ l ∈ s.blob.map[key]?,
    ∀ lock ∈ s.blob.lockedFiles[l.slice.fileId]?, lock.acquisition = t

/-- The entry that a call loads is the one that the map has. -/
def LoadsCurrent (s : Server) (a : Await) : Prop :=
  ∀ e ∈ a.loads, ∀ l ∈ s.blob.map[e.1]?, e.2.slice = l.slice ∧ e.2.written = l.written

end Server

namespace Sessions

/-- The unlock of a session does not reach the lock of another one, and no call acts on a check or an
answer of Redis that is out of date. -/
def Meets (w : Sessions) : SessionAction → Prop
  | .unlock session => ∀ g ∈ w.granted[session]?, ∀ lock ∈ w.server.blob.lockedFiles[g.fileId]?,
    lock.acquisition = session
  | .serve (.resume t _) => ∀ c ∈ w.server.calls[t]?,
    w.server.ReservesFree t c.await ∧ w.server.LoadsCurrent c.await
  | _ => True

end Sessions

/-- The creation has locked this file for these keys. -/
def Await.HoldsFor (fileId : UInt32) (keys : List String) : Await → Prop
  | .redis (.addFile entries _ id _) _ => id = fileId ∧ keysOf entries = keys
  | .redis (.setSize entries _ id _ _ _) _ => id = fileId ∧ keysOf entries = keys
  | .redis (.setSlices o _) _ => o.fileId = fileId
  | _ => False

/-- The creation has put its keys into the map. -/
def Await.listed : Await → Bool
  | .redis (.setSlices _ _) _ => true
  | _ => false

/-- The call is an unlock that has found a key without an entry. -/
def Await.marks : Await → Bool
  | .redis (.markKey ..) _ => true
  | _ => false

namespace Server

variable {s s₁ : Server} {t : CallId} {activity : Activity} {p : Progress} {fileId : UInt32}
  {lock : FileLock} {key : String} {l : LockWrapper}

section Parts

theorem listed_checked {b : BlobStorage} {entries : List BlobEntry} {nodeId : String}
    {keys : List String} (h : b.Checked entries nodeId keys p) :
    ∀ a, p = .waits a → a.listed = false ∧ a.marks = false := by
  cases h <;> rintro _ ⟨⟩ <;> exact ⟨rfl, rfl⟩

theorem listed_startLookup (b : BlobStorage) (key : String) :
    ∀ a, b.startLookup key = .waits a → a.listed = false ∧ a.marks = false := by
  intro a ha
  rw [BlobStorage.startLookup] at ha
  split_ifs at ha
  split at ha <;> cases ha
  exact ⟨rfl, rfl⟩

/-- A lock after a part was there before, or the call has just taken it. -/
theorem Part.lock_cases (h : Part s t activity s₁ p)
    (hlock : s₁.blob.lockedFiles[fileId]? = some lock) :
    s.blob.lockedFiles[fileId]? = some lock ∨
      lock.acquisition = t ∧ (∃ a₀ choice, activity = .resume a₀ choice ∧ a₀.seeks) ∧
        ∃ a, p = .waits a ∧ a.HoldsFor fileId lock.keys ∧ a.listed = false := by
  cases h with
  | pickNew hfree hsize hfile =>
    change (s.blob.lockedFiles.insert _ _)[fileId]? = some lock at hlock
    rw [FiniteMap.getElem?_insert] at hlock
    split_ifs at hlock with hid
    · cases hlock
      exact .inr ⟨rfl, ⟨_, _, rfl, rfl⟩, _, rfl, ⟨hid, rfl⟩, rfl⟩
    · exact .inl hlock
  | pickFree hfree hsize hnone hinfo =>
    change (s.blob.lockedFiles.insert _ _)[fileId]? = some lock at hlock
    rw [FiniteMap.getElem?_insert] at hlock
    split_ifs at hlock with hid
    · cases hlock
      exact .inr ⟨rfl, ⟨_, _, rfl, rfl⟩, _, rfl, ⟨hid, rfl⟩, rfl⟩
    · exact .inl hlock
  | notified hinfo =>
    change (s.blob.lockedFiles.insert _ _)[fileId]? = some lock at hlock
    rw [FiniteMap.getElem?_insert] at hlock
    split_ifs at hlock with hid
    · cases hlock
      exact .inr ⟨rfl, ⟨_, _, rfl, rfl⟩, _, rfl, ⟨hid, rfl⟩, rfl⟩
    · exact .inl hlock
  | wrongNode hold hnode =>
    change (s.blob.lockedFiles.erase _)[fileId]? = some lock at hlock
    rw [FiniteMap.getElem?_erase] at hlock
    split_ifs at hlock
    exact .inl hlock
  | unlock hold hnode =>
    rw [withBlob, BlobStorage.markKeys_lockedFiles] at hlock
    change (s.blob.lockedFiles.erase _)[fileId]? = some lock at hlock
    rw [FiniteMap.getElem?_erase] at hlock
    split_ifs at hlock
    exact .inl hlock
  | publish needsCreation byteOffset info =>
    rw [BlobStorage.publish_eq] at hlock
    exact .inl hlock
  | markLoaded hl =>
    rw [withBlob, BlobStorage.markKeys_lockedFiles] at hlock
    exact .inl hlock
  | unlocked hinfo =>
    rw [abortCleaner_eq] at hlock
    exact .inl hlock
  | unlockedNone hnone =>
    rw [abortCleaner_eq] at hlock
    exact .inl hlock
  | _ => exact .inl hlock

/-- A creation that has locked its file goes on with it. -/
theorem Part.holdsFor (h : Part s t activity s₁ p) {keys : List String}
    (hresume : ∃ a₀ choice, activity = .resume a₀ choice ∧ a₀.HoldsFor fileId keys) :
    ∀ a, p = .waits a → a.HoldsFor fileId keys := by
  obtain ⟨a₀, choice, rfl, hholds⟩ := hresume
  cases h with
  | reserve hinfo => rintro _ ⟨⟩; exact hholds
  | publish needsCreation byteOffset info =>
    rw [BlobStorage.publish_eq]
    rintro _ ⟨⟩
    exact hholds.1
  | broken hreply => rintro _ ⟨⟩
  | reserveNone hnone => rintro _ ⟨⟩
  | created o toSetInRedis => rintro _ ⟨⟩
  | _ => exact hholds.elim

/-- A creation that has locked its file comes to have its keys in the map when it puts them there,
and returns when it has. -/
theorem Part.lists (h : Part s t activity s₁ p) {a₀ : Await} {choice : UInt32} {keys : List String}
    (hactivity : activity = .resume a₀ choice) (hholds : a₀.HoldsFor fileId keys)
    (hp : (∃ a, p = .waits a ∧ a.listed) ∨ ∃ o, p = .returns (.offset o)) :
    a₀.puts = keys ∨ a₀.listed := by
  subst hactivity
  cases h with
  | publish => exact .inl hholds.2
  | created => exact .inr rfl
  | reserve =>
    rcases hp with ⟨a, ha, hlisted⟩ | ⟨o, ho⟩
    · cases ha
      cases hlisted
    · cases ho
  | broken =>
    rcases hp with ⟨a, ha, -⟩ | ⟨o, ho⟩
    · cases ha
    · cases ho
  | reserveNone =>
    rcases hp with ⟨a, ha, -⟩ | ⟨o, ho⟩
    · cases ha
    · cases ho
  | _ => exact hholds.elim

theorem slices_fileId {entries : List BlobEntry} {fileName : String} {offset : UInt64}
    {e : String × BlobStorageSlice} (he : e ∈ slicesFrom fileId fileName offset entries) :
    e.2.fileId = fileId := by
  induction entries generalizing offset with
  | nil => cases he
  | cons entry entries ih =>
    rcases List.mem_cons.mp he with rfl | he
    · rfl
    · exact ih he

/-- The entry of a key that a creation puts into the map. -/
theorem exists_publish {b : BlobStorage} {entries : List BlobEntry}
    (hkeys : (keysOf entries).Nodup) (hkey : key ∈ keysOf entries) (nodeId : String)
    (needsCreation : Bool) (byteOffset : UInt64) (info : FileInfo) :
    ∃ l, (b.publish entries nodeId fileId needsCreation byteOffset info).1.map[key]? = some l ∧
      l.slice.fileId = fileId ∧ l.written = false := by
  have hnodup := BlobStorage.keys_wrappersFrom entries nodeId fileId byteOffset info ▸ hkeys
  rw [← BlobStorage.keys_wrappersFrom entries nodeId fileId byteOffset info] at hkey
  obtain ⟨w, hw, rfl⟩ := List.mem_map.mp hkey
  rw [BlobStorage.publish_eq]
  refine ⟨_, FiniteMap.getElem?_foldl_insert_of_mem hnodup _ hw, ?_⟩
  obtain ⟨e, he, rfl⟩ := List.mem_map.mp hw
  exact ⟨slices_fileId he, rfl⟩

theorem getElem?_publish {b : BlobStorage} {entries : List BlobEntry} (hkey : key ∉ keysOf entries)
    (nodeId : String) (needsCreation : Bool) (byteOffset : UInt64) (info : FileInfo) :
    (b.publish entries nodeId fileId needsCreation byteOffset info).1.map[key]? = b.map[key]? := by
  rw [BlobStorage.publish_eq]
  apply FiniteMap.getElem?_foldl_insert_of_not_mem
  intro e he heq
  apply hkey
  rw [← BlobStorage.keys_wrappersFrom entries nodeId fileId byteOffset info, ← heq]
  exact List.mem_map_of_mem he

/-- A call loads what the map has already. -/
def LoadsSame (s : Server) (a : Await) : Prop :=
  ∀ e ∈ a.loads, ∃ l, s.blob.map[e.1]? = some l ∧ l.slice = e.2.slice ∧ l.written = e.2.written

/-- The keys of a batch are put into the map with slices of its file. -/
theorem Part.put_entry (h : Part s t activity s₁ p) {request : Request} (hof : activity.Of request)
    {a₀ : Await} {choice : UInt32} {keys : List String} (hactivity : activity = .resume a₀ choice)
    (hholds : a₀.HoldsFor fileId keys) (hkey : key ∈ a₀.puts) :
    ∃ l, s₁.blob.map[key]? = some l ∧ l.slice.fileId = fileId := by
  subst hactivity
  cases h with
  | publish needsCreation byteOffset info =>
    cases hof with
    | resume hexpects =>
      cases hexpects with
      | setSize hkeys =>
        obtain ⟨l, hl, hfile, -⟩ := exists_publish hkeys hkey _ needsCreation byteOffset info
        exact ⟨l, hl, hfile.trans hholds.1⟩
  | broken hreply =>
    rename_i k reply
    cases k with
    | setSize =>
      cases reply with
      | ok => exact absurd rfl hreply
      | _ => cases hkey
    | _ => cases hkey
  | _ => cases hkey

/-- Another entry keeps its slice. -/
theorem Part.slice_kept (h : Part s t activity s₁ p) (hl : s.blob.map[key]? = some l)
    (hloads : ∀ a choice, activity = .resume a choice → s.LoadsSame a)
    (hputs : ∀ a choice, activity = .resume a choice → key ∉ a.puts) :
    ∃ l', s₁.blob.map[key]? = some l' ∧ l'.slice = l.slice := by
  have hinsert : ∀ (key' : String) (l' : LockWrapper) (a : Await) (choice : UInt32),
      activity = .resume a choice → a.loads = some (key', l') →
        ∃ l'', (s.blob.insertKey key' l').map[key]? = some l'' ∧ l''.slice = l.slice := by
    intro key' l' a choice hactivity ha
    rw [BlobStorage.insertKey_map, FiniteMap.getElem?_insert]
    split_ifs with heq
    · obtain ⟨l₀, hl₀, hslice, -⟩ := hloads a choice hactivity _ ha
      rw [heq, hl] at hl₀
      cases hl₀
      exact ⟨l', rfl, hslice.symm⟩
    · exact ⟨l, hl, rfl⟩
  have hmark : ∀ (b : BlobStorage) (l' : LockWrapper), b.map[key]? = some l' →
      ∀ (fileId : UInt32) (keys : List String) (toSet : List (String × Value)),
        ∃ l'', (b.markKeys fileId keys toSet).1.map[key]? = some l'' ∧ l''.slice = l'.slice := by
    intro b l' hl' fileId keys toSet
    rw [BlobStorage.markKeys_map, hl']
    split_ifs
    · exact ⟨l'.marked, rfl, rfl⟩
    · exact ⟨l', rfl, rfl⟩
  cases h with
  | checkLoaded hread hp => exact hinsert _ _ _ _ rfl (by simp [Await.loads, hread])
  | lookupLoaded hread => exact hinsert _ _ _ _ rfl (by simp [Await.loads, hread])
  | publish needsCreation byteOffset info =>
    refine ⟨l, ?_, rfl⟩
    rw [withBlob, getElem?_publish (hputs _ _ rfl), hl]
  | unlock hlock hnode => exact hmark (s.removeLock _).blob l hl _ _ _
  | markLoaded hread =>
    obtain ⟨l', hl', hslice⟩ := hinsert _ _ _ _ rfl (congrArg (Option.map _) hread)
    obtain ⟨l'', hl'', hslice'⟩ := hmark _ l' hl' _ _ _
    exact ⟨l'', hl'', hslice'.trans hslice⟩
  | unlocked hinfo => rw [abortCleaner_eq]; exact ⟨l, hl, rfl⟩
  | unlockedNone hnone => rw [abortCleaner_eq]; exact ⟨l, hl, rfl⟩
  | _ => exact ⟨l, hl, rfl⟩

/-- A key is written after a part if it was before, or if the lock that the call removes has it. -/
theorem Part.written_cases (h : Part s t activity s₁ p) {request : Request}
    (hof : activity.Of request)
    (hloads : ∀ a choice, activity = .resume a choice → s.LoadsSame a)
    (hmarks : ∀ a choice, activity = .resume a choice → a.marks = false)
    (hl : s₁.blob.map[key]? = some l) (hwritten : l.written = true) :
    (∃ l₀, s.blob.map[key]? = some l₀ ∧ l₀.written = true) ∨
      ∃ fileId nodeId, ∃ lock : FileLock, activity = .start (.createUnlock fileId nodeId) ∧
        s.blob.lockedFiles[fileId]? = some lock ∧ key ∈ lock.keys := by
  have hinsert : ∀ (key' : String) (l' : LockWrapper) (a : Await) (choice : UInt32),
      activity = .resume a choice → a.loads = some (key', l') →
        (s.blob.insertKey key' l').map[key]? = some l →
          ∃ l₀, s.blob.map[key]? = some l₀ ∧ l₀.written = true := by
    intro key' l' a choice hactivity ha hl'
    rw [BlobStorage.insertKey_map, FiniteMap.getElem?_insert] at hl'
    split_ifs at hl' with heq
    · obtain ⟨l₀, hl₀, -, hsame⟩ := hloads a choice hactivity _ ha
      cases hl'
      exact ⟨l₀, heq ▸ hl₀, hsame.trans hwritten⟩
    · exact ⟨l, hl', hwritten⟩
  cases h with
  | checkLoaded hread hp => exact .inl (hinsert _ _ _ _ rfl (by simp [Await.loads, hread]) hl)
  | lookupLoaded hread => exact .inl (hinsert _ _ _ _ rfl (by simp [Await.loads, hread]) hl)
  | publish needsCreation byteOffset info =>
    cases hof with
    | resume hexpects =>
      cases hexpects with
      | setSize hkeys =>
        rename_i entries nodeId fileId choice
        by_cases hkey : key ∈ keysOf entries
        · obtain ⟨l', hl', -, hnot⟩ :=
            exists_publish (b := s.blob) hkeys hkey nodeId needsCreation byteOffset info
          rw [withBlob] at hl
          rw [Option.some.inj (hl'.symm.trans hl), hwritten] at hnot
          cases hnot
        · rw [withBlob, getElem?_publish hkey] at hl
          exact .inl ⟨l, hl, hwritten⟩
  | unlock hlock hnode =>
    rename_i fileId nodeId lock
    rw [withBlob, BlobStorage.markKeys_map] at hl
    split_ifs at hl with hkey
    · exact .inr ⟨fileId, nodeId, lock, rfl, hlock, (List.takeWhile_subset _) hkey⟩
    · exact .inl ⟨l, hl, hwritten⟩
  | markLoaded hread => cases hmarks _ _ rfl
  | unlocked hinfo => rw [abortCleaner_eq] at hl; exact .inl ⟨l, hl, hwritten⟩
  | unlockedNone hnone => rw [abortCleaner_eq] at hl; exact .inl ⟨l, hl, hwritten⟩
  | _ => exact .inl ⟨l, hl, hwritten⟩

/-- An unlock whose keys have entries does not ask Redis for them. -/
theorem Part.unmarked (h : Part s t activity s₁ p)
    (hmarks : ∀ a choice, activity = .resume a choice → a.marks = false)
    (hunlock : ∀ fileId nodeId, activity = .start (.createUnlock fileId nodeId) →
      ∀ lock ∈ s.blob.lockedFiles[fileId]?, ∀ key ∈ lock.keys, key ≠ filePoolKey →
        key ∈ s.blob.map) : ∀ a, p = .waits a → a.marks = false := by
  cases h with
  | check hp => exact fun a ha => (listed_checked hp a ha).2
  | checkAbsent hp => exact fun a ha => (listed_checked hp a ha).2
  | checkLoaded hl hp => exact fun a ha => (listed_checked hp a ha).2
  | publish needsCreation byteOffset info =>
    rw [BlobStorage.publish_eq]
    rintro _ ⟨⟩
    rfl
  | unlock hlock hnode =>
    rename_i fileId nodeId lock
    have hmarked := BlobStorage.markKeys_marked (b := (s.removeLock fileId).blob) fileId lock.keys []
    generalize ((s.removeLock fileId).blob.markKeys fileId lock.keys []).2 = p at hmarked
    cases hmarked with
    | all items hkeys hitems htexts => rintro _ ⟨⟩; rfl
    | asks pre key rest items hkeys hpre hkey hnone hitems htexts =>
      have hmem := hunlock _ _ rfl lock hlock key (by simp [hkeys]) hkey
      obtain ⟨l, hl⟩ := FiniteMap.mem_iff_getElem?.mp hmem
      cases hnone.symm.trans hl
    | reserved hkey => rintro _ ⟨⟩
  | markLoaded hl => cases hmarks _ _ rfl
  | lookup => exact fun a ha => (listed_startLookup _ _ a ha).2
  | lookupLoaded hl => exact fun a ha => (listed_startLookup _ _ a ha).2
  | _ => rintro _ ⟨⟩ <;> rfl

end Parts

end Server

open Server

namespace Sessions

/-- The creation of the session has put its keys into the map, and the unlock has not been sent. -/
def Announced (w : Sessions) (session : CallId) : Prop :=
  (∃ g, w.granted[session]? = some g) ∨ ∃ a, w.server.At session a ∧ a.listed

/-- The keys of a lock are in the map with slices of its file, put there by the session that holds
the lock. -/
structure Owned (w : Sessions) : Prop where
  fresh : w.server.Fresh
  expected : w.server.Expected
  tracked : w.server.Tracked
  acquired : ∀ (fileId : UInt32) (lock : FileLock),
    w.server.blob.lockedFiles[fileId]? = some lock → lock.acquisition < w.server.nextCall
  returned : ∀ (session : CallId) (g : Grant), w.granted[session]? = some g →
    session < w.server.nextCall ∧ ∀ a, ¬w.server.At session a
  holding : ∀ (fileId : UInt32) (lock : FileLock), w.server.blob.lockedFiles[fileId]? = some lock →
    ∀ a, w.server.At lock.acquisition a → a.HoldsFor fileId lock.keys
  reserved : ∀ (fileId : UInt32) (lock : FileLock),
    w.server.blob.lockedFiles[fileId]? = some lock → w.Announced lock.acquisition →
      ∀ key ∈ lock.keys, key ≠ filePoolKey →
        w.reservedBy[key]? = some lock.acquisition ∧
          ∃ l, w.server.blob.map[key]? = some l ∧ l.slice.fileId = fileId
  unmarked : ∀ t a, w.server.At t a → a.marks = false

variable {w w' : Sessions} {key : String} {fileId : UInt32} {lock : FileLock}

theorem written_iff (htracked : w.server.Tracked) : w.Written key ↔
    key ≠ filePoolKey ∧ ∃ l, w.server.blob.map[key]? = some l ∧ l.written = true := by
  rw [Written, lookupAnswer]
  split_ifs with hkey
  · simp [hkey]
  rw [and_iff_right hkey]
  cases hl : w.server.blob.map[key]? with
  | some l =>
    dsimp only
    rw [BlobStorage.lookupResponse]
    constructor
    · rintro ⟨slice, hslice⟩
      split_ifs at hslice with hwritten
      exact ⟨l, rfl, hwritten⟩
    · rintro ⟨_, ⟨⟩, hwritten⟩
      exact ⟨l.slice, if_pos hwritten⟩
  | none =>
    have hnone : w.server.redis[key]? = none := by
      apply Option.eq_none_iff_forall_ne_some.mpr
      intro v hv
      obtain ⟨l, hl'⟩ := FiniteMap.mem_iff_getElem?.mp (htracked.redis key hkey v hv)
      cases hl.symm.trans hl'
    simp [hnone]

/-- An entry that Redis has answered with is in the map already. -/
theorem loadsSame_of_current (htracked : w.server.Tracked) {t : CallId} {c : Call}
    (hcall : w.server.calls[t]? = some c) (hcurrent : w.server.LoadsCurrent c.await) :
    w.server.LoadsSame c.await := by
  intro e he
  have hfound : c.await.found ∧ e.1 ∈ c.await.asks := by
    obtain ⟨request, await⟩ := c
    dsimp only at he ⊢
    rw [Await.loads.eq_def] at he
    split at he
    · obtain ⟨l, -, rfl⟩ := Option.map_eq_some_iff.mp he
      exact ⟨rfl, rfl⟩
    · obtain ⟨l, -, rfl⟩ := Option.map_eq_some_iff.mp he
      exact ⟨rfl, rfl⟩
    · obtain ⟨l, -, rfl⟩ := Option.map_eq_some_iff.mp he
      exact ⟨rfl, rfl⟩
    · cases he
  have hmem := htracked.replies t _ (at_of_call hcall) (by rw [Await.found_deaf]; exact hfound.1)
    e.1 (by rw [Await.asks_deaf]; exact hfound.2)
  obtain ⟨l, hl⟩ := FiniteMap.mem_iff_getElem?.mp hmem
  obtain ⟨hslice, hwritten⟩ := hcurrent e he l hl
  exact ⟨l, hl, hslice.symm, hwritten.symm⟩

/-- The sessions after a step of the server. -/
def served (w : Sessions) (a : Action) (s' : Server) (es : List Event) : Sessions where
  server := s'
  granted := es.foldl grantTo w.granted
  reservedBy := (w.server.reserving a).foldl (fun m e => m.insert e.1 e.2) w.reservedBy

theorem exists_of_serve {a : Action} (h : w.serve a = some w') :
    ∃ s' es, w.server.step a = some (s', es) ∧ w' = w.served a s' es := by
  obtain ⟨⟨s', es⟩, hstep, rfl⟩ := Option.map_eq_some_iff.mp h
  exact ⟨s', es, hstep, rfl⟩

theorem getElem?_reserve (keys : List String) (t : CallId) (m : DashMap String CallId)
    (key : String) : ((keys.map fun k => (k, t)).foldl (fun m e => m.insert e.1 e.2) m)[key]? =
      if key ∈ keys then some t else m[key]? := by
  induction keys generalizing m with
  | nil => simp
  | cons k keys ih =>
    rw [List.map_cons, List.foldl_cons, ih, FiniteMap.getElem?_insert]
    by_cases hmem : key ∈ keys
    · simp [hmem]
    · by_cases hk : k = key
      · simp [hk]
      · simp [hmem, hk, Ne.symm hk]

section Part

variable {s₁ : Server} {t : CallId} {activity : Activity} {p : Progress} {request : Request}
  {next : CallId} {a : Action}

theorem holdsFor_deaf {keys : List String} {a : Await} :
    a.deaf.HoldsFor fileId keys ↔ a.HoldsFor fileId keys := by
  cases a <;> rfl

theorem listed_deaf (a : Await) : a.deaf.listed = a.listed := by cases a <;> rfl

theorem marks_deaf (a : Await) : a.deaf.marks = a.marks := by cases a <;> rfl

/-- The call whose part it is was in flight, or is new. -/
theorem inFlight_or_new (hruns : Runs w.server a t request activity next) :
    (∃ a₀ choice, activity = .resume a₀ choice ∧ w.server.At t a₀.deaf ∧ next = w.server.nextCall) ∨
      (∃ r, activity = .start r) ∧ t = w.server.nextCall ∧ next = w.server.nextCall + 1 := by
  cases hruns with
  | start => exact .inr ⟨⟨_, rfl⟩, rfl, rfl⟩
  | resume hcall => exact .inl ⟨_, _, rfl, at_of_call hcall, rfl⟩

theorem reserving_part (hruns : Runs w.server a t request activity next) :
    (∀ a₀ choice, activity = .resume a₀ choice →
      w.server.reserving a = a₀.puts.map fun key => (key, t)) ∧
    ∀ r, activity = .start r → w.server.reserving a = [] := by
  cases hruns with
  | start => exact ⟨by rintro _ _ ⟨⟩, fun _ _ => rfl⟩
  | resume hcall =>
    refine ⟨?_, by rintro _ ⟨⟩⟩
    rintro _ _ ⟨⟩
    rw [reserving, hcall]

theorem granted_settle {session : CallId} {g : Grant}
    (hg : ((({ s₁ with nextCall := next } : Server).settle t request p).2.foldl grantTo
      w.granted)[session]? = some g) :
    w.granted[session]? = some g ∨ session = t ∧ ∃ o, p = .returns (.offset o) := by
  cases p with
  | waits a => exact .inl hg
  | returns r =>
    change (grantTo w.granted ⟨t, request, r⟩)[session]? = some g at hg
    rw [grantTo] at hg
    split at hg
    · rename_i o hrequest hresponse
      rw [FiniteMap.getElem?_insert] at hg
      split_ifs at hg with hsession
      · dsimp only at hresponse
        exact .inr ⟨hsession.symm, o, by rw [hresponse]⟩
      · exact .inl hg
    · exact .inl hg

theorem Owned.part (hw : w.Owned) (hruns : Runs w.server a t request activity next)
    (haction : a.KeepsRunning) (h : Part w.server t activity s₁ p)
    (hresume : ∀ a₀ choice, activity = .resume a₀ choice →
      w.server.ReservesFree t a₀ ∧ w.server.LoadsSame a₀)
    (hunlock : ∀ fileId nodeId, activity = .start (.createUnlock fileId nodeId) →
      ∀ lock ∈ w.server.blob.lockedFiles[fileId]?, ∀ key ∈ lock.keys, key ≠ filePoolKey →
        key ∈ w.server.blob.map) :
    (w.served a (s₁.after t request next p)
      (({ s₁ with nextCall := next } : Server).settle t request p).2).Owned := by
  have hstep := Step.part hruns h
  have hfresh := hstep.fresh hw.fresh
  have hof := hruns.of hw.expected
  have hflight := inFlight_or_new hruns
  -- a session that has returned is not the one that runs
  have hother : ∀ (session : CallId) (g : Grant), w.granted[session]? = some g → t ≠ session := by
    rintro session g hg rfl
    obtain ⟨hlt, hnot⟩ := hw.returned _ g hg
    rcases hflight with ⟨a₀, choice, -, hat, -⟩ | ⟨-, hnew, -⟩
    · exact hnot _ hat
    · exact hlt.ne hnew
  have hnext : t < next ∧ w.server.nextCall ≤ next := by
    rcases hflight with ⟨a₀, choice, -, hat, rfl⟩ | ⟨-, rfl, rfl⟩
    · exact ⟨hw.fresh t _ hat, le_rfl⟩
    · exact ⟨Nat.lt_succ_self _, Nat.le_succ _⟩
  -- the lock of the call that runs is for the file and keys it goes on with
  have hown : ∀ (fileId : UInt32) (lock : FileLock),
      w.server.blob.lockedFiles[fileId]? = some lock → lock.acquisition = t →
        ∃ a₀ choice, activity = .resume a₀ choice ∧ w.server.At t a₀.deaf ∧
          a₀.HoldsFor fileId lock.keys := by
    rintro fileId lock hlock rfl
    rcases hflight with ⟨a₀, choice, hactivity, hat, -⟩ | ⟨-, hnew, -⟩
    · exact ⟨a₀, choice, hactivity, hat, holdsFor_deaf.mp (hw.holding fileId lock hlock _ hat)⟩
    · exact absurd hnew (hw.acquired fileId lock hlock).ne
  have hmarks : ∀ a₀ choice, activity = .resume a₀ choice → a₀.marks = false := by
    rintro a₀ choice rfl
    rw [← marks_deaf]
    exact hw.unmarked t _ hruns.at_resume
  constructor
  case fresh => exact hfresh
  case expected => exact hstep.expected hw.expected
  case tracked => exact hw.tracked.step hw.expected haction hstep
  case acquired =>
    intro fileId lock hlock
    change (s₁.after t request next p).blob.lockedFiles[fileId]? = some lock at hlock
    rw [after_blob] at hlock
    change lock.acquisition < (s₁.after t request next p).nextCall
    rw [after_nextCall]
    rcases h.lock_cases hlock with hold | ⟨heq, -⟩
    · exact (hw.acquired fileId lock hold).trans_le hnext.2
    · exact heq ▸ hnext.1
  case returned =>
    intro session g hg
    change session < (s₁.after t request next p).nextCall ∧ _
    rw [after_nextCall]
    rcases granted_settle hg with hg | ⟨rfl, o, rfl⟩
    · obtain ⟨hlt, hnot⟩ := hw.returned session g hg
      refine ⟨hlt.trans_le hnext.2, fun a hat => hnot a ?_⟩
      change (s₁.after t request next p).At session a at hat
      rw [at_after, if_neg (hother session g hg)] at hat
      exact h.at_iff.mp hat
    · refine ⟨hnext.1, fun a hat => ?_⟩
      change (s₁.after _ request next (.returns (.offset o))).At _ a at hat
      rw [at_after, if_pos rfl] at hat
      obtain ⟨a', ha', -⟩ := hat
      cases ha'
  case holding =>
    intro fileId lock hlock a' hat
    change (s₁.after t request next p).blob.lockedFiles[fileId]? = some lock at hlock
    change (s₁.after t request next p).At lock.acquisition a' at hat
    rw [after_blob] at hlock
    rw [at_after] at hat
    rcases h.lock_cases hlock with hold | ⟨heq, -, a₁, hp, hholds, -⟩
    · split_ifs at hat with hacquisition
      · obtain ⟨a₁, hp, rfl⟩ := hat
        obtain ⟨a₀, choice, hactivity, -, hholds⟩ := hown fileId lock hold hacquisition.symm
        exact holdsFor_deaf.mpr (h.holdsFor ⟨a₀, choice, hactivity, hholds⟩ a₁ hp)
      · exact hw.holding fileId lock hold a' (h.at_iff.mp hat)
    · rw [if_pos heq.symm] at hat
      obtain ⟨a₂, hp', rfl⟩ := hat
      cases hp.symm.trans hp'
      exact holdsFor_deaf.mpr hholds
  case reserved =>
    intro fileId lock hlock hannounced key hkey hne
    change (s₁.after t request next p).blob.lockedFiles[fileId]? = some lock at hlock
    change (List.foldl _ w.reservedBy (w.server.reserving a))[key]? = some lock.acquisition ∧
      ∃ l, (s₁.after t request next p).blob.map[key]? = some l ∧ l.slice.fileId = fileId
    rw [after_blob] at hlock ⊢
    obtain ⟨hputs, hstarts⟩ := reserving_part hruns
    -- what the call that runs announces
    have hself : lock.acquisition = t →
        (∃ a', p = .waits a' ∧ a'.listed) ∨ ∃ o, p = .returns (.offset o) := by
      intro heq
      rcases hannounced with ⟨g, hg⟩ | ⟨a', hat, hlisted⟩
      · rcases granted_settle hg with hg | ⟨-, hp⟩
        · exact absurd heq.symm (hother _ g hg)
        · exact .inr hp
      · change (s₁.after t request next p).At lock.acquisition a' at hat
        rw [at_after, if_pos heq.symm] at hat
        obtain ⟨a₁, hp, rfl⟩ := hat
        exact .inl ⟨a₁, hp, by rwa [listed_deaf] at hlisted⟩
    rcases h.lock_cases hlock with hold | ⟨heq, -, a₁, hp, -, hnot⟩
    · by_cases heq : lock.acquisition = t
      · obtain ⟨a₀, choice, hactivity, hat, hholds⟩ := hown fileId lock hold heq
        rw [hputs a₀ choice hactivity, getElem?_reserve]
        rcases h.lists hactivity hholds (hself heq) with hall | hlisted
        · rw [if_pos (by rw [hall]; exact hkey), heq]
          exact ⟨rfl, h.put_entry hof hactivity hholds (by rw [hall]; exact hkey)⟩
        · have hnone : a₀.puts = [] := by
            cases a₀ with
            | redis k reply => cases k <;> first | rfl | cases hlisted
            | _ => rfl
          have hbefore : w.Announced lock.acquisition :=
            .inr ⟨a₀.deaf, by rwa [heq], by rwa [listed_deaf]⟩
          obtain ⟨hby, l, hl, hfile⟩ := hw.reserved fileId lock hold hbefore key hkey hne
          rw [if_neg (by simp [hnone])]
          obtain ⟨l', hl', hslice⟩ := h.slice_kept hl (fun a₁ c₁ h₁ => (hresume a₁ c₁ h₁).2)
            (by rw [hactivity]; rintro _ _ ⟨⟩; simp [hnone])
          exact ⟨hby, l', hl', by rw [hslice, hfile]⟩
      · have hbefore : w.Announced lock.acquisition := by
          rcases hannounced with ⟨g, hg⟩ | ⟨a', hat, hlisted⟩
          · rcases granted_settle hg with hg | ⟨hsession, -⟩
            · exact .inl ⟨g, hg⟩
            · exact absurd hsession heq
          · change (s₁.after t request next p).At lock.acquisition a' at hat
            rw [at_after, if_neg (Ne.symm heq)] at hat
            exact .inr ⟨a', h.at_iff.mp hat, hlisted⟩
        obtain ⟨hby, l, hl, hfile⟩ := hw.reserved fileId lock hold hbefore key hkey hne
        -- its file is locked by another session, so the key is not put into the map again
        have hfree : ∀ a₀ choice, activity = .resume a₀ choice → key ∉ a₀.puts := by
          intro a₀ choice hactivity hput
          have hpublishes : key ∈ a₀.publishes := by
            rw [Await.puts.eq_def] at hput
            split at hput
            · exact hput
            · cases hput
          have hreserves := (hresume a₀ choice hactivity).1 key hpublishes hne l hl
          rw [hfile] at hreserves
          exact heq (hreserves lock hold)
        obtain ⟨l', hl', hslice⟩ := h.slice_kept hl (fun a₁ c₁ h₁ => (hresume a₁ c₁ h₁).2) hfree
        refine ⟨?_, l', hl', by rw [hslice, hfile]⟩
        rcases hflight with ⟨a₀, choice, hactivity, -⟩ | ⟨⟨r, hactivity⟩, -⟩
        · rw [hputs a₀ choice hactivity, getElem?_reserve, if_neg (hfree a₀ choice hactivity)]
          exact hby
        · rw [hstarts r hactivity]
          exact hby
    · -- a lock that has just been taken is not announced
      rcases hself heq with ⟨a₂, hp', hlisted⟩ | ⟨o, hp'⟩
      · cases hp.symm.trans hp'
        rw [hnot] at hlisted
        cases hlisted
      · cases hp.symm.trans hp'
  case unmarked =>
    change ∀ t' a', (s₁.after t request next p).At t' a' → a'.marks = false
    refine h.forall_at (fun t' a' _ => hw.unmarked t' a') fun a' hp => ?_
    rw [marks_deaf]
    exact h.unmarked hmarks hunlock a' hp

end Part

/-- Fewer sessions have not sent their unlock. -/
theorem Owned.erase (hw : w.Owned) (session : CallId) :
    ({ w with granted := w.granted.erase session } : Sessions).Owned := by
  have hless : ∀ (session' : CallId) (g : Grant),
      (w.granted.erase session)[session']? = some g → w.granted[session']? = some g := by
    intro session' g hg
    rw [FiniteMap.getElem?_erase] at hg
    split_ifs at hg
    exact hg
  refine ⟨hw.fresh, hw.expected, hw.tracked, hw.acquired, ?_, hw.holding, ?_, hw.unmarked⟩
  · exact fun session' g hg => hw.returned session' g (hless session' g hg)
  · intro fileId lock hlock hannounced
    apply hw.reserved fileId lock hlock
    exact hannounced.imp (fun ⟨g, hg⟩ => ⟨g, hless _ g hg⟩) id

/-- What a step of the server keeps, and which keys it makes written. -/
theorem Owned.serve (hw : w.Owned) {a : Action} (haction : a.KeepsRunning)
    (hresume : ∀ t choice, a = .resume t choice → ∀ c ∈ w.server.calls[t]?,
      w.server.ReservesFree t c.await ∧ w.server.LoadsCurrent c.await)
    (hunlock : ∀ fileId nodeId, a = .call (.createUnlock fileId nodeId) →
      ∀ lock ∈ w.server.blob.lockedFiles[fileId]?, ∀ key ∈ lock.keys, key ≠ filePoolKey →
        key ∈ w.server.blob.map) (h : w.serve a = some w') :
    w'.Owned ∧ ∀ key, ¬w.Written key → w'.Written key →
      ∃ fileId nodeId, ∃ lock : FileLock, a = .call (.createUnlock fileId nodeId) ∧
        w.server.blob.lockedFiles[fileId]? = some lock ∧ key ∈ lock.keys ∧ key ≠ filePoolKey := by
  obtain ⟨s', es, hstep, rfl⟩ := exists_of_serve h
  have htracked := hw.tracked.step hw.expected haction (step_of_eq hstep)
  have hnothing {s' : Server} {es : List Event} (htracked : s'.Tracked)
      (hmap : s'.blob.map = w.server.blob.map) : ∀ key, ¬w.Written key →
        (w.served a s' es).Written key → ∃ fileId nodeId, ∃ lock : FileLock,
          a = .call (.createUnlock fileId nodeId) ∧
            w.server.blob.lockedFiles[fileId]? = some lock ∧ key ∈ lock.keys ∧
              key ≠ filePoolKey := by
    intro key hnot hwritten
    have hsame : (w.served a s' es).Written key ↔ _ := written_iff htracked
    rw [hsame] at hwritten
    change key ≠ filePoolKey ∧ ∃ l, s'.blob.map[key]? = some l ∧ l.written = true at hwritten
    rw [hmap, ← written_iff hw.tracked] at hwritten
    exact absurd hwritten hnot
  cases step_of_eq hstep with
  | part hruns part =>
    rename_i t request activity next s₁ p
    have hloads : ∀ a₀ choice, activity = .resume a₀ choice → w.server.LoadsSame a₀ := by
      rintro a₀ choice rfl
      cases hruns with
      | resume hcall => exact loadsSame_of_current hw.tracked hcall (hresume _ _ rfl _ hcall).2
    have hstart : ∀ fileId nodeId, activity = .start (.createUnlock fileId nodeId) →
        a = .call (.createUnlock fileId nodeId) := by
      rintro fileId nodeId rfl
      cases hruns
      rfl
    refine ⟨hw.part hruns haction part ?_ fun fileId nodeId h => hunlock _ _ (hstart _ _ h), ?_⟩
    · rintro a₀ choice rfl
      refine ⟨?_, hloads a₀ choice rfl⟩
      cases hruns with
      | resume hcall => exact (hresume _ _ rfl _ hcall).1
    · intro key hnot hwritten
      have hiff := (written_iff (w := w.served a _ _) htracked).mp hwritten
      obtain ⟨hne, l, hl, hlwritten⟩ := hiff
      change (Server.after _ _ _ _ _).blob.map[key]? = some l at hl
      rw [after_blob] at hl
      rcases part.written_cases (hruns.of hw.expected) hloads
        (by rintro a₀ choice rfl; rw [← marks_deaf]; exact hw.unmarked _ _ hruns.at_resume)
        hl hlwritten with hold | ⟨fileId, nodeId, lock, hactivity, hlock, hkey⟩
      · exact absurd ((written_iff hw.tracked).mpr ⟨hne, hold⟩) hnot
      · exact ⟨fileId, nodeId, lock, hstart _ _ hactivity, hlock, hkey, hne⟩
  | execute hcall =>
    rename_i t request k
    have hold : ∀ t' a', (w.server.executed t request k).At t' a' → ∃ a₀, w.server.At t' a₀ ∧
        a'.listed = a₀.listed ∧ a'.marks = a₀.marks ∧
          ∀ fileId keys, a₀.HoldsFor fileId keys → a'.HoldsFor fileId keys := by
      refine forall_at_execute (fun t' a' _ hat => ⟨a', hat, rfl, rfl, fun _ _ h => h⟩) ?_
      refine ⟨.redis k none, at_of_call hcall, ?_⟩
      cases k <;> exact ⟨rfl, rfl, fun _ _ h => h⟩
    refine ⟨⟨(step_of_eq hstep).fresh hw.fresh, (step_of_eq hstep).expected hw.expected, htracked,
      hw.acquired, ?_, ?_, ?_, ?_⟩, hnothing htracked rfl⟩
    · intro session g hg
      obtain ⟨hlt, hnot⟩ := hw.returned session g hg
      refine ⟨hlt, fun a' hat => ?_⟩
      obtain ⟨a₀, hat₀, -⟩ := hold session a' hat
      exact hnot a₀ hat₀
    · intro fileId lock hlock a' hat
      obtain ⟨a₀, hat₀, -, -, hholds⟩ := hold _ a' hat
      exact hholds _ _ (hw.holding fileId lock hlock a₀ hat₀)
    · intro fileId lock hlock hannounced
      apply hw.reserved fileId lock hlock
      rcases hannounced with hg | ⟨a', hat, hlisted⟩
      · exact .inl hg
      · obtain ⟨a₀, hat₀, heq, -⟩ := hold _ a' hat
        exact .inr ⟨a₀, hat₀, heq ▸ hlisted⟩
    · intro t' a' hat
      obtain ⟨a₀, hat₀, -, heq, -⟩ := hold t' a' hat
      exact heq.trans (hw.unmarked t' a₀ hat₀)
  | expire hcleaner hlock =>
    rename_i cleaner c lock
    have hless : ∀ (fileId : UInt32) (lock : FileLock),
        (w.server.blob.lockedFiles.erase c.fileId)[fileId]? = some lock →
          w.server.blob.lockedFiles[fileId]? = some lock := by
      intro fileId lock hlock
      rw [FiniteMap.getElem?_erase] at hlock
      split_ifs at hlock
      exact hlock
    refine ⟨⟨(step_of_eq hstep).fresh hw.fresh, (step_of_eq hstep).expected hw.expected, htracked,
      ?_, ?_, ?_, ?_, ?_⟩, hnothing htracked rfl⟩
    · exact fun fileId lock hlock => hw.acquired fileId lock (hless fileId lock hlock)
    · intro session g hg
      obtain ⟨hlt, hnot⟩ := hw.returned session g hg
      exact ⟨hlt, fun a' hat => hnot a' ((at_notifyWaiters _).mp hat)⟩
    · intro fileId lock hlock a' hat
      exact hw.holding fileId lock (hless fileId lock hlock) a' ((at_notifyWaiters _).mp hat)
    · intro fileId lock hlock hannounced
      apply hw.reserved fileId lock (hless fileId lock hlock)
      exact hannounced.imp id fun ⟨a', hat, hlisted⟩ => ⟨a', (at_notifyWaiters _).mp hat, hlisted⟩
    · exact fun t' a' hat => hw.unmarked t' a' ((at_notifyWaiters _).mp hat)
  | stop hcleaner hlock =>
    exact ⟨⟨hw.fresh, hw.expected, htracked, hw.acquired, hw.returned, hw.holding, hw.reserved,
      hw.unmarked⟩, hnothing htracked rfl⟩
  | receive hcleaner =>
    exact ⟨⟨hw.fresh, hw.expected, htracked, hw.acquired, hw.returned, hw.holding, hw.reserved,
      hw.unmarked⟩, hnothing htracked rfl⟩
  | restart hboot => exact haction.elim

/-- An unlock removes the lock of its file at most. -/
theorem lockedFiles_unlock {s s₁ : Server} {t : CallId} {p : Progress} {nodeId : String}
    (h : Part s t (.start (.createUnlock fileId nodeId)) s₁ p) {fileId' : UInt32}
    (hne : fileId ≠ fileId') : s₁.blob.lockedFiles[fileId']? = s.blob.lockedFiles[fileId']? := by
  have herase : (s.blob.lockedFiles.erase fileId)[fileId']? = s.blob.lockedFiles[fileId']? := by
    rw [FiniteMap.getElem?_erase, if_neg hne]
  cases h with
  | notLocked => rfl
  | wrongNode => exact herase
  | unlock =>
    rw [withBlob, BlobStorage.markKeys_lockedFiles]
    exact herase

theorem Owned.unlock (hw : w.Owned) {session : CallId} (hmeets : w.Meets (.unlock session))
    (h : w.step (.unlock session) = some w') : w'.Owned ∧ w.OwnerPublishes (.unlock session) w' := by
  obtain ⟨g, hg, hserve⟩ := Option.bind_eq_some_iff.mp h
  have hannounced : w.Announced session := .inl ⟨g, hg⟩
  have hlock : ∀ lock ∈ w.server.blob.lockedFiles[g.fileId]?, lock.acquisition = session :=
    hmeets g hg
  have hlisted : ∀ lock ∈ w.server.blob.lockedFiles[g.fileId]?, ∀ key ∈ lock.keys,
      key ≠ filePoolKey → key ∈ w.server.blob.map := by
    intro lock hmem key hkey hne
    have hown := hlock lock hmem
    obtain ⟨-, l, hl, -⟩ := hw.reserved g.fileId lock hmem (hown ▸ hannounced) key hkey hne
    exact FiniteMap.mem_iff_getElem?.mpr ⟨l, hl⟩
  obtain ⟨hnext, hwrites⟩ := (hw.erase session).serve (a := .call (.createUnlock g.fileId g.nodeId))
    trivial (by rintro _ _ ⟨⟩) (by rintro _ _ ⟨⟩; exact hlisted) hserve
  refine ⟨hnext, ⟨fun key hnot hwritten => ?_, ?_⟩⟩
  · obtain ⟨fileId, nodeId, lock, heq, hmem, hkey, hne⟩ := hwrites key hnot hwritten
    cases heq
    have hown := hlock lock hmem
    obtain ⟨hby, -⟩ := hw.reserved g.fileId lock hmem (hown ▸ hannounced) key hkey hne
    exact ⟨session, rfl, hown ▸ hby, g.fileId, lock, hmem, hown⟩
  · rintro _ ⟨⟩ fileId lock hmem hother
    have hne : g.fileId ≠ fileId := by
      rintro rfl
      exact hother (hlock lock hmem)
    obtain ⟨s', es, hstep, rfl⟩ := exists_of_serve hserve
    cases step_of_eq hstep with
    | part hruns part =>
      cases hruns
      change (Server.after _ _ _ _ _).blob.lockedFiles[fileId]? = some lock
      rw [after_blob, lockedFiles_unlock part hne]
      exact hmem

theorem Owned.step (hw : w.Owned) {a : SessionAction} (hmeets : w.Meets a)
    (h : w.step a = some w') : w'.Owned ∧ w.OwnerPublishes a w' := by
  have hserve : ∀ a' : Action, a'.KeepsRunning → w.serve a' = some w' →
      (∀ t choice, a' = .resume t choice → ∀ c ∈ w.server.calls[t]?,
        w.server.ReservesFree t c.await ∧ w.server.LoadsCurrent c.await) →
      (∀ fileId nodeId, a' ≠ .call (.createUnlock fileId nodeId)) →
      (∀ session, a ≠ .unlock session) → w'.Owned ∧ w.OwnerPublishes a w' := by
    intro a' haction hserve hresume hcall hunlock
    obtain ⟨hnext, hwrites⟩ := hw.serve haction hresume
      (fun fileId nodeId heq => absurd heq (hcall fileId nodeId)) hserve
    refine ⟨hnext, ⟨fun key hnot hwritten => ?_, fun session heq => absurd heq (hunlock session)⟩⟩
    obtain ⟨fileId, nodeId, lock, heq, -⟩ := hwrites key hnot hwritten
    exact absurd heq (hcall fileId nodeId)
  cases a with
  | start entries nodeId =>
    exact hserve (.call (.createAndLock entries nodeId)) trivial h (by rintro _ _ ⟨⟩) (by rintro _ _ ⟨⟩) (by rintro _ ⟨⟩)
  | unlock session => exact hw.unlock hmeets h
  | keepAlive fileId =>
    exact hserve (.call (.keepAliveLock fileId)) trivial h (by rintro _ _ ⟨⟩) (by rintro _ _ ⟨⟩) (by rintro _ ⟨⟩)
  | lookup key =>
    exact hserve (.call (.lookup key)) trivial h (by rintro _ _ ⟨⟩) (by rintro _ _ ⟨⟩) (by rintro _ ⟨⟩)
  | serve a' =>
    cases a' with
    | call request => cases h
    | restart config => cases h
    | execute t =>
      exact hserve (.execute t) trivial h (by rintro _ _ ⟨⟩) (by rintro _ _ ⟨⟩) (by rintro _ ⟨⟩)
    | resume t choice =>
      exact hserve (.resume t choice) trivial h (by rintro _ _ ⟨⟩; exact hmeets) (by rintro _ _ ⟨⟩)
        (by rintro _ ⟨⟩)
    | tick cleaner =>
      exact hserve (.tick cleaner) trivial h (by rintro _ _ ⟨⟩) (by rintro _ _ ⟨⟩) (by rintro _ ⟨⟩)
    | receive cleaner =>
      exact hserve (.receive cleaner) trivial h (by rintro _ _ ⟨⟩) (by rintro _ _ ⟨⟩) (by rintro _ ⟨⟩)

theorem owned_init {config : BlobStorageConfig} (h : init config = some w) : w.Owned := by
  obtain ⟨s, hboot, rfl⟩ := Option.map_eq_some_iff.mp h
  have hlocked : s.blob.lockedFiles = ∅ := by
    obtain ⟨b, hinit, rfl⟩ := Option.map_eq_some_iff.mp hboot
    exact (init_forgets hinit).2.1
  refine ⟨fresh_boot hboot, expected_boot hboot, tracked_boot hboot, ?_, ?_, ?_, ?_, ?_⟩
  · simp [hlocked]
  · simp
  · simp [hlocked]
  · simp [hlocked]
  · exact fun t a hat => absurd hat (not_at_boot hboot)

/-- In a run in which no unlock reaches the lock of another session, and no call acts on what is out
of date, only the owner of a key publishes it, while it holds its lock. -/
theorem ownerPublishes_of_run {config : BlobStorageConfig} {w₀ w w' : Sessions} {a : SessionAction}
    (hinit : init config = some w₀) (hreach : Runs.Reach step Meets w₀ w) (hmeets : w.Meets a)
    (hstep : w.step a = some w') : w.OwnerPublishes a w' := by
  have hw : w.Owned := hreach.invariant (owned_init hinit) fun hs hm h => (hs.step hm h).1
  exact (hw.step hmeets hstep).2

/-- An unlock that reaches the lock of another session takes it. -/
theorem not_ownerPublishes_of_late {session : CallId} {g : Grant}
    (hg : w.granted[session]? = some g) (hlock : w.server.blob.lockedFiles[g.fileId]? = some lock)
    (hother : lock.acquisition ≠ session) (hstep : w.step (.unlock session) = some w') :
    ¬w.OwnerPublishes (.unlock session) w' := by
  intro howner
  have hkept := howner.released session rfl g.fileId lock hlock hother
  obtain ⟨g', hg', hserve⟩ := Option.bind_eq_some_iff.mp hstep
  cases hg.symm.trans hg'
  obtain ⟨s', es, hstep', rfl⟩ := exists_of_serve hserve
  have hgone : s'.blob.lockedFiles[g.fileId]? = none := by
    cases step_of_eq hstep' with
    | part hruns part =>
      cases hruns
      rw [after_blob]
      have herase : (w.server.blob.lockedFiles.erase g.fileId)[g.fileId]? = none := by
        rw [FiniteMap.getElem?_erase, if_pos rfl]
      cases part with
      | notLocked hnone => exact hnone
      | wrongNode => exact herase
      | unlock =>
        rw [withBlob, BlobStorage.markKeys_lockedFiles]
        exact herase
  change s'.blob.lockedFiles[g.fileId]? = some lock at hkept
  rw [hgone] at hkept
  cases hkept

section Decidable

instance (s : Server) (t : CallId) (a : Await) : Decidable (s.ReservesFree t a) :=
  inferInstanceAs (Decidable (∀ key ∈ a.publishes, key ≠ filePoolKey → ∀ l ∈ s.blob.map[key]?,
    ∀ lock ∈ s.blob.lockedFiles[l.slice.fileId]?, lock.acquisition = t))

instance (s : Server) (a : Await) : Decidable (s.LoadsCurrent a) :=
  inferInstanceAs (Decidable (∀ e ∈ a.loads, ∀ l ∈ s.blob.map[e.1]?,
    e.2.slice = l.slice ∧ e.2.written = l.written))

instance (w : Sessions) : (a : SessionAction) → Decidable (w.Meets a)
  | .unlock session => inferInstanceAs (Decidable (∀ g ∈ w.granted[session]?,
      ∀ lock ∈ w.server.blob.lockedFiles[g.fileId]?, lock.acquisition = session))
  | .serve (.resume t _) => inferInstanceAs (Decidable (∀ c ∈ w.server.calls[t]?,
      w.server.ReservesFree t c.await ∧ w.server.LoadsCurrent c.await))
  | .serve (.call _) | .serve (.execute _) | .serve (.tick _) | .serve (.receive _) => isTrue trivial
  | .serve (.restart _) => isTrue trivial
  | .start _ _ | .keepAlive _ | .lookup _ => isTrue trivial

end Decidable

/-- The steps of a session up to the answer of its creation. -/
def reserving (key : String) (session : CallId) (created : Bool) : List SessionAction :=
  [.start [⟨key, 1⟩] "node", .serve (.execute session), .serve (.resume session 0),
    .serve (.resume session 0)] ++
  (if created then [.serve (.execute session), .serve (.resume session 0)] else []) ++
  [.serve (.execute session), .serve (.resume session 0), .serve (.execute session),
    .serve (.resume session 0)]

/-- What a lookup of the key finds before and after the session sends its unlock. -/
def unlockAnswers (w : Sessions) (session : CallId) (key : String) :
    Option (Sessions × Response × Response) :=
  (w.step (.unlock session)).map fun w' =>
    (w', Server.lookupAnswer w.server.blob w.server.redis key,
      Server.lookupAnswer w'.server.blob w'.server.redis key)

/-- The unlock comes before the lock expires. -/
theorem ownerPublishes_of_run_intime : ∃ w₀ w w', init ⟨1⟩ = some w₀ ∧
    Runs.Reach step Meets w₀ w ∧ w.step (.unlock 0) = some w' ∧ ¬w.Written "a" ∧ w'.Written "a" ∧
    w.OwnerPublishes (.unlock 0) w' := by
  have hrun : (init ⟨1⟩).any (fun w₀ =>
      (Runs.performIf step Meets w₀ (reserving "a" 0 true)).any fun w =>
        w.Meets (.unlock 0) && (w.unlockAnswers 0 "a").any fun r =>
          r.2 = (.error .notWritten, .slice ⟨0, "blob_0.bin", 0, 1⟩)) := by
    decide +kernel
  obtain ⟨w₀, hinit, hrun⟩ := (Option.any_eq_true _ _).mp hrun
  obtain ⟨w, hperform, hlast⟩ := (Option.any_eq_true _ _).mp hrun
  obtain ⟨hmeets, hunlock⟩ := Bool.and_eq_true_iff.mp hlast
  obtain ⟨r, htaken, hanswers⟩ := (Option.any_eq_true _ _).mp hunlock
  obtain ⟨w', hstep, rfl⟩ := Option.map_eq_some_iff.mp htaken
  obtain ⟨hbefore, hafter⟩ := Prod.mk.inj (of_decide_eq_true hanswers)
  have hreach := Runs.reach_of_performIf hperform
  refine ⟨w₀, w, w', hinit, hreach, hstep, ?_, ⟨_, hafter⟩,
    ownerPublishes_of_run hinit hreach (of_decide_eq_true hmeets) hstep⟩
  rintro ⟨slice, hslice⟩
  rw [hbefore] at hslice
  cases hslice

/-- The lock of the first session has expired, and the node's second session holds the file when the
unlock of the first one comes. -/
theorem not_ownerPublishes_expired : ∃ w₀ w w', init ⟨1⟩ = some w₀ ∧
    Runs.Reach step (fun _ _ => True) w₀ w ∧ w.step (.unlock 0) = some w' ∧
    w.reservedBy["b"]? = some 1 ∧ ¬w.Written "b" ∧ w'.Written "b" ∧
    ¬w.OwnerPublishes (.unlock 0) w' := by
  have hrun : (init ⟨1⟩).any (fun w₀ =>
      (Runs.performIf step (fun _ _ => True) w₀
        (reserving "a" 0 true ++ [.serve (.tick 0)] ++ reserving "b" 1 false)).any fun w =>
          w.reservedBy["b"]? = some 1 && (w.unlockAnswers 0 "b").any fun r =>
            r.2 = (.error .notWritten, .slice ⟨0, "blob_0.bin", 1, 1⟩)) := by
    decide +kernel
  obtain ⟨w₀, hinit, hrun⟩ := (Option.any_eq_true _ _).mp hrun
  obtain ⟨w, hperform, hlast⟩ := (Option.any_eq_true _ _).mp hrun
  obtain ⟨hreserved, hunlock⟩ := Bool.and_eq_true_iff.mp hlast
  obtain ⟨r, htaken, hanswers⟩ := (Option.any_eq_true _ _).mp hunlock
  obtain ⟨w', hstep, rfl⟩ := Option.map_eq_some_iff.mp htaken
  obtain ⟨hbefore, hafter⟩ := Prod.mk.inj (of_decide_eq_true hanswers)
  have hreserved := of_decide_eq_true hreserved
  have hnot : ¬w.Written "b" := by
    rintro ⟨slice, hslice⟩
    rw [hbefore] at hslice
    cases hslice
  refine ⟨w₀, w, w', hinit, Runs.reach_of_performIf hperform, hstep, hreserved, hnot,
    ⟨_, hafter⟩, fun howner => ?_⟩
  obtain ⟨session, heq, hby, -⟩ := howner.published "b" hnot ⟨_, hafter⟩
  cases heq
  rw [hreserved] at hby
  cases hby

end Sessions

end NpmFollower.BlobIdxServer
