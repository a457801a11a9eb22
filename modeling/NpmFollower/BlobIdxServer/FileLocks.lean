import NpmFollower.BlobIdxServer.Requests

/-! # The locks of the files and their cleaners

A part of a call takes the lock of a file, removes it, aborts its cleaner, or
leaves the locks as they are. Which of them a call may do depends on where it is:
before it has its file, or in the unlock of one.
-/

namespace NpmFollower.BlobIdxServer

open Std PostgresDb

/-- The file that the call has removed the lock of, and whose cleaner it will abort. -/
def Await.unlocks : Await → Option UInt32
  | .redis (.markKey fileId _ _ _) _ => some fileId
  | .redis (.setWritten fileId _) _ => some fileId
  | _ => none

/-- The call creates and has no file yet. -/
def Await.seeks : Await → Bool
  | .redis (.checkKey ..) _ => true
  | .fileLock .. => true
  | .unlockNotify .. => true
  | _ => false

def Await.isRedis : Await → Bool
  | .redis _ _ => true
  | _ => false

/-- The batch of a creation that is past its checks and not in the map yet. -/
def Await.batch : Await → Option (List BlobEntry)
  | .fileLock entries _ => some entries
  | .unlockNotify entries _ _ _ => some entries
  | .redis (.addFile entries _ _ _) _ => some entries
  | .redis (.setSize entries _ _ _ _ _) _ => some entries
  | _ => none

@[simp] theorem Await.isRedis_deaf (a : Await) : a.deaf.isRedis = a.isRedis := by cases a <;> rfl

@[simp] theorem Await.batch_deaf (a : Await) : a.deaf.batch = a.batch := by cases a <;> rfl

@[simp] theorem Await.unlocks_deaf (a : Await) : a.deaf.unlocks = a.unlocks := by cases a <;> rfl

@[simp] theorem Await.seeks_deaf (a : Await) : a.deaf.seeks = a.seeks := by cases a <;> rfl

@[simp] theorem Await.unlocks_redis (k : Continuation) (reply : Option Reply) :
    (Await.redis k reply).unlocks = (Await.redis k none).unlocks := by cases k <;> rfl

@[simp] theorem Await.seeks_redis (k : Continuation) (reply : Option Reply) :
    (Await.redis k reply).seeks = (Await.redis k none).seeks := by cases k <;> rfl

namespace Server

variable (s : Server)

/-- The file of a running cleaner. -/
def running (cleaner : CallId) : Option UInt32 := (s.cleaners[cleaner]?).map (·.fileId)

/-- The file that a call locks when it goes on from there, if it locks one. -/
def picks (choice : UInt32) : Await → Option UInt32
  | .fileLock _ _ =>
    if UInt32.ofNat s.blob.filePool.size ≠ s.blob.config.maxFiles then
      some (.ofNat s.blob.filePool.size)
    else if s.blob.unlockedFiles.isEmpty then none
    else some choice
  | .unlockNotify _ _ fileId _ => some fileId
  | _ => none

/-- What a part of call `t` does to the locks and the cleaners. -/
inductive LockMove (s s₁ : Server) (t : CallId) : Activity → Progress → Prop where
  | same {activity : Activity} {p : Progress} (hlocked : s₁.blob.lockedFiles = s.blob.lockedFiles)
      (htasks : s₁.blob.cleanupTasks = s.blob.cleanupTasks)
      (hrunning : s₁.running = s.running)
      (hunlocks : ∀ a, p = .waits a → ∀ F, a.unlocks = some F →
        ∃ a₀ choice, activity = .resume a₀ choice ∧ a₀.unlocks = some F)
      (hseeks : ∀ a, p = .waits a → a.seeks →
        ∀ a₀ choice, activity = .resume a₀ choice → a₀.seeks) :
      LockMove s s₁ t activity p
  | take {a₀ a : Await} {choice fileId : UInt32} {entries : List BlobEntry} {nodeId : String}
      (hpicks : s.picks choice a₀ = some fileId) (hbatch : a₀.batch = some entries)
      (hlocked : s₁.blob.lockedFiles =
        s.blob.lockedFiles.insert fileId ⟨nodeId, keysOf entries, t⟩)
      (htasks : s₁.blob.cleanupTasks = s.blob.cleanupTasks.insert fileId t)
      (hrunning : ∀ id, s₁.running id = if t = id then some fileId else s.running id)
      (hholds : a.unlocks = none ∧ a.seeks = false ∧ a.isRedis ∧ a.batch = some entries) :
      LockMove s s₁ t (.resume a₀ choice) (.waits a)
  | release {fileId : UInt32} {nodeId : String} {lock : FileLock} {p : Progress}
      (hlock : s.blob.lockedFiles[fileId]? = some lock)
      (hlocked : s₁.blob.lockedFiles = s.blob.lockedFiles.erase fileId)
      (htasks : s₁.blob.cleanupTasks = s.blob.cleanupTasks) (hrunning : s₁.running = s.running)
      (hp : ∀ a, p = .waits a → a.unlocks = some fileId ∧ a.seeks = false) :
      LockMove s s₁ t (.start (.createUnlock fileId nodeId)) p
  | abort {a₀ : Await} {choice fileId : UInt32} {r : Response} (hunlocks : a₀.unlocks = some fileId)
      (hlocked : s₁.blob.lockedFiles = s.blob.lockedFiles)
      (htasks : s₁.blob.cleanupTasks = s.blob.cleanupTasks.erase fileId)
      (hrunning : ∀ id, s₁.running id =
        if s.blob.cleanupTasks[fileId]? = some id then none else s.running id) :
      LockMove s s₁ t (.resume a₀ choice) (.returns r)

variable {s}

theorem cleanupTasks_abortCleaner (fileId : UInt32) :
    (s.abortCleaner fileId).blob.cleanupTasks = s.blob.cleanupTasks.erase fileId := by
  rw [abortCleaner]
  cases htask : s.blob.cleanupTasks[fileId]? with
  | some c => rfl
  | none =>
    ext id
    simp only [FiniteMap.getElem?_erase]
    split_ifs with hid
    · simp [← hid, htask]
    · rfl

theorem running_abortCleaner (fileId : UInt32) (id : CallId) :
    (s.abortCleaner fileId).running id =
      if s.blob.cleanupTasks[fileId]? = some id then none else s.running id := by
  rw [abortCleaner]
  cases htask : s.blob.cleanupTasks[fileId]? with
  | none => simp
  | some c =>
    simp only [running, FiniteMap.getElem?_erase, Option.some.injEq]
    split_ifs <;> rfl

theorem running_acquire {t : CallId} (entries : List BlobEntry) (nodeId : String) (fileId : UInt32)
    (id : CallId) : (s.acquire t entries nodeId fileId).running id =
      if t = id then some fileId else s.running id := by
  simp only [acquire, running, setFileLock, spawnLockCleaner, insertLock, FiniteMap.getElem?_insert]
  split_ifs <;> rfl

theorem unlockedFiles_isEmpty {fileId : UInt32} {info : FileInfo}
    (hfree : s.blob.lockedFiles[fileId]? = none) (hinfo : s.blob.filePool[fileId]? = some info) :
    ¬s.blob.unlockedFiles.isEmpty := by
  rw [List.isEmpty_iff]
  apply List.ne_nil_of_mem
  rw [BlobStorage.unlockedFiles, List.mem_filter, ExtTreeMap.mem_keys, contains_lockedFiles, hfree]
  exact ⟨FiniteMap.mem_iff_getElem?.mpr ⟨info, hinfo⟩, rfl⟩

section Moves

variable {s₁ : Server} {t : CallId} {activity : Activity} {p : Progress}

theorem unlocks_checked {b : BlobStorage} {entries : List BlobEntry} {nodeId : String}
    {keys : List String} (h : b.Checked entries nodeId keys p) :
    ∀ a, p = .waits a → a.unlocks = none := by
  cases h <;> rintro _ ⟨⟩ <;> rfl

theorem unlocks_marked {b : BlobStorage} {fileId : UInt32} {keys : List String}
    {toSet : List (String × Value)} (h : b.Marked fileId keys toSet p) :
    ∀ a, p = .waits a → a.unlocks = some fileId ∧ a.seeks = false := by
  cases h <;> rintro _ ⟨⟩ <;> exact ⟨rfl, rfl⟩

theorem locks_startLookup (b : BlobStorage) (key : String) :
    ∀ a, b.startLookup key = .waits a → a.unlocks = none ∧ a.seeks = false := by
  intro a ha
  rw [BlobStorage.startLookup] at ha
  split_ifs at ha
  split at ha <;> cases ha
  exact ⟨rfl, rfl⟩

theorem Part.lockMove (h : Part s t activity s₁ p) : LockMove s s₁ t activity p := by
  cases h with
  | check hp =>
    exact .same rfl rfl rfl (fun a ha F hF => by simp [unlocks_checked hp a ha] at hF) (by simp)
  | checkAbsent hp =>
    refine .same rfl rfl rfl (fun a ha F hF => by simp [unlocks_checked hp a ha] at hF) ?_
    rintro a - - _ _ ⟨⟩
    rfl
  | checkLoaded hl hp =>
    refine .same rfl rfl rfl (fun a ha F hF => by simp [unlocks_checked hp a ha] at hF) ?_
    rintro a - - _ _ ⟨⟩
    rfl
  | pickNew hlock hsize hfile =>
    exact .take (by rw [picks, if_pos hsize, hfile]) rfl rfl rfl (running_acquire _ _ _)
      ⟨rfl, rfl, rfl, rfl⟩
  | pickFree hlock hsize hfree hinfo =>
    refine .take ?_ rfl rfl rfl (running_acquire _ _ _) ⟨rfl, rfl, rfl, rfl⟩
    rw [picks, if_neg (not_not.mpr hsize), if_neg (unlockedFiles_isEmpty hfree hinfo)]
  | notified hinfo =>
    exact .take rfl rfl rfl rfl (running_acquire _ _ _) ⟨rfl, rfl, rfl, rfl⟩
  | pickWait hlock hsize hinfo =>
    refine .same rfl rfl rfl (by rintro _ ⟨⟩ _ ⟨⟩) ?_
    rintro _ - - _ _ ⟨⟩
    rfl
  | publish needsCreation byteOffset info =>
    rw [BlobStorage.publish_eq]
    exact .same rfl rfl rfl (by rintro _ ⟨⟩ _ ⟨⟩) (by rintro _ ⟨⟩ ⟨⟩)
  | wrongNode hlock hnode => exact .release hlock rfl rfl rfl (by rintro _ ⟨⟩)
  | unlock hlock hnode =>
    refine .release hlock ?_ ?_ rfl (unlocks_marked (BlobStorage.markKeys_marked _ _ _))
    · exact BlobStorage.markKeys_lockedFiles _ _ _
    · exact BlobStorage.markKeys_cleanupTasks _ _ _
  | markLoaded hl =>
    refine .same ?_ ?_ rfl ?_ ?_
    · exact BlobStorage.markKeys_lockedFiles _ _ _
    · exact BlobStorage.markKeys_cleanupTasks _ _ _
    · intro a ha F hF
      rw [(unlocks_marked (BlobStorage.markKeys_marked _ _ _) a ha).1] at hF
      exact ⟨_, _, rfl, hF⟩
    · intro a ha hseeks
      rw [(unlocks_marked (BlobStorage.markKeys_marked _ _ _) a ha).2] at hseeks
      cases hseeks
  | unlocked hinfo =>
    exact .abort rfl (by rw [abortCleaner_eq]; rfl) (cleanupTasks_abortCleaner _)
      (running_abortCleaner _)
  | unlockedNone hnone =>
    exact .abort rfl (by rw [abortCleaner_eq]) (cleanupTasks_abortCleaner _) (running_abortCleaner _)
  | keepAliveSent hcleaner =>
    refine .same rfl rfl ?_ (by rintro _ ⟨⟩) (by rintro _ ⟨⟩)
    funext id
    rw [running, running, FiniteMap.getElem?_insert]
    split_ifs with hid
    · rw [← hid, hcleaner]
      rfl
    · rfl
  | lookup =>
    refine .same rfl rfl rfl ?_ (by simp)
    intro a ha F hF
    simp [(locks_startLookup _ _ a ha).1] at hF
  | lookupLoaded hl =>
    refine .same rfl rfl rfl ?_ ?_
    · intro a ha F hF
      simp [(locks_startLookup _ _ a ha).1] at hF
    · intro a ha hseeks
      simp [(locks_startLookup _ _ a ha).2] at hseeks
  | _ => exact .same rfl rfl rfl (by rintro _ ⟨⟩ _ ⟨⟩) (by rintro _ ⟨⟩ ⟨⟩)

end Moves

end Server

end NpmFollower.BlobIdxServer
