import NpmFollower.Library.Leases
import NpmFollower.Library.Runs
import NpmFollower.BlobIdxServer.FileLocks
import NpmFollower.BlobIdxServer.FilePool

/-! # Locks and their cleaners

The cleaner of a lock is spawned when the lock is taken, and aborted at the end
of the unlock that has removed the lock at its start. The two stay paired as long
as a file is not locked again in between, or while an older cleaner of it runs.
-/

namespace NpmFollower.BlobIdxServer

open Std PostgresDb Runs

namespace Server

variable (s : Server)

/-- Every lock has in `cleanup_tasks` the cleaner that was spawned with it, and that cleaner runs. -/
def CleanersPaired : Prop :=
  ∀ fileId (lock : FileLock), s.blob.lockedFiles[fileId]? = some lock →
    s.blob.cleanupTasks[fileId]? = some lock.acquisition ∧
      ∃ c : Cleaner, s.cleaners[lock.acquisition]? = some c ∧ c.fileId = fileId

/-- No unlock of the file is in flight, and none of its cleaners runs. -/
def Settled (fileId : UInt32) : Prop :=
  (∀ t a, s.At t a → a.unlocks ≠ some fileId) ∧ ∀ cleaner, s.running cleaner ≠ some fileId

/-- A locked file is unlocked by the node that has locked it, and a lock is taken of settled files
only. -/
def LocksSettled : Action → Prop
  | .call (.createUnlock fileId nodeId) =>
    ∀ lock, s.blob.lockedFiles[fileId]? = some lock → lock.nodeId = nodeId
  | .resume t choice =>
    ∀ c fileId, s.calls[t]? = some c → s.picks choice c.await = some fileId → s.Settled fileId
  | _ => True

/-- The locks as leases of the files, each under the call that has taken it. -/
def leases : Leases UInt32 CallId where
  holder := fun fileId => (s.blob.lockedFiles[fileId]?).map (·.acquisition)
  timer := fun fileId => s.blob.cleanupTasks[fileId]?
  running := s.running

structure LockInv : Prop where
  fresh : s.Fresh
  expected : s.Expected
  paired : s.leases.Paired
  unlocking : ∀ t a, s.At t a → ∀ fileId, a.unlocks = some fileId →
    s.blob.lockedFiles[fileId]? = none
  /-- A call that has spawned a cleaner does not seek a file any more. -/
  spawned : ∀ cleaner, (∃ fileId, s.running cleaner = some fileId ∨
    s.blob.cleanupTasks[fileId]? = some cleaner) →
      cleaner < s.nextCall ∧ ∀ a, s.At cleaner a → a.seeks = false

variable {s} {s₁ : Server} {t : CallId} {request : Request} {activity : Activity} {p : Progress}
  {action : Action} {next : CallId}

theorem holder_leases (fileId : UInt32) :
    s.leases.holder fileId = (s.blob.lockedFiles[fileId]?).map (·.acquisition) := rfl

theorem LockInv.cleanersPaired (hs : s.LockInv) : s.CleanersPaired := by
  intro fileId lock hlock
  have hholder : s.leases.holder fileId = some lock.acquisition := by
    rw [holder_leases, hlock, Option.map_some]
  obtain ⟨htimer, hrunning⟩ := hs.paired.timed fileId _ hholder
  exact ⟨htimer, Option.map_eq_some_iff.mp hrunning⟩

@[simp] theorem after_running : (s₁.after t request next p).running = s₁.running := by
  funext id
  rw [running, after_cleaners, running]

@[simp] theorem after_leases : (s₁.after t request next p).leases = s₁.leases := by
  simp only [leases, after_blob, after_running]

theorem leases_take {fileId : UInt32} {lock : FileLock} (hlock : lock.acquisition = t)
    (hlocked : s₁.blob.lockedFiles = s.blob.lockedFiles.insert fileId lock)
    (htasks : s₁.blob.cleanupTasks = s.blob.cleanupTasks.insert fileId t)
    (hrunning : ∀ id, s₁.running id = if t = id then some fileId else s.running id) :
    s₁.leases = s.leases.take fileId t := by
  simp only [leases, Leases.take, hlocked, htasks, FiniteMap.getElem?_insert, Leases.mk.injEq]
  refine ⟨?_, trivial, funext hrunning⟩
  funext id
  split_ifs
  · rw [Option.map_some, hlock]
  · rfl

theorem leases_release {fileId : UInt32}
    (hlocked : s₁.blob.lockedFiles = s.blob.lockedFiles.erase fileId)
    (htasks : s₁.blob.cleanupTasks = s.blob.cleanupTasks) (hrunning : s₁.running = s.running) :
    s₁.leases = s.leases.release fileId := by
  simp only [leases, Leases.release, hlocked, htasks, hrunning, FiniteMap.getElem?_erase,
    Leases.mk.injEq, and_true]
  funext id
  split_ifs <;> rfl

theorem leases_abort {fileId : UInt32} (hlocked : s₁.blob.lockedFiles = s.blob.lockedFiles)
    (htasks : s₁.blob.cleanupTasks = s.blob.cleanupTasks.erase fileId)
    (hrunning : ∀ id, s₁.running id =
      if s.blob.cleanupTasks[fileId]? = some id then none else s.running id) :
    s₁.leases = s.leases.abort fileId := by
  simp only [leases, Leases.abort, hlocked, htasks, FiniteMap.getElem?_erase, Leases.mk.injEq,
    true_and]
  exact funext hrunning

theorem running_erase (cleaner id : CallId) :
    ({ s with cleaners := s.cleaners.erase cleaner } : Server).running id =
      if cleaner = id then none else s.running id := by
  rw [running, FiniteMap.getElem?_erase]
  split_ifs <;> rfl

theorem running_of_erase {cleaner id : CallId} {fileId : UInt32}
    (h : ({ s with cleaners := s.cleaners.erase cleaner } : Server).running id = some fileId) :
    s.running id = some fileId := by
  rw [running_erase] at h
  split_ifs at h
  exact h

theorem running_insert {cleaner : CallId} {c : Cleaner} (hcleaner : s.cleaners[cleaner]? = some c)
    (keepAlive : Bool) :
    ({ s with cleaners := s.cleaners.insert cleaner ⟨c.fileId, keepAlive⟩ } : Server).running =
      s.running := by
  funext id
  rw [running, running, FiniteMap.getElem?_insert]
  split_ifs with hid
  · rw [← hid, hcleaner, Option.map_some, Option.map_some]
  · rfl

theorem leases_stop (cleaner : CallId) :
    ({ s with cleaners := s.cleaners.erase cleaner } : Server).leases = s.leases.stop cleaner := by
  simp only [leases, Leases.stop, Leases.mk.injEq, true_and]
  exact funext (running_erase cleaner)

theorem Runs.nextCall_le (h : Runs s action t request activity next) : s.nextCall ≤ next := by
  cases h with
  | start => exact Nat.le_succ _
  | resume => exact Nat.le_refl _

theorem seeks_of_picks {choice fileId : UInt32} {a : Await} (h : s.picks choice a = some fileId) :
    a.seeks := by
  cases a with
  | fileLock => rfl
  | unlockNotify => rfl
  | redis => cases h
  | keepAlive => cases h

/-- A call that does not seek a file does not begin to. -/
theorem Part.spawned_after (part : Part s t activity s₁ p)
    (hruns : Runs s action t request activity next) {cleaner : CallId}
    (hcleaner : cleaner < s.nextCall ∧ ∀ a, s.At cleaner a → a.seeks = false)
    (hp : ∀ a, p = .waits a → a.seeks → ∀ a₀ choice, activity = .resume a₀ choice → a₀.seeks) :
    cleaner < next ∧ ∀ a, (s₁.after t request next p).At cleaner a → a.seeks = false := by
  obtain ⟨hlt, hnot⟩ := hcleaner
  refine ⟨hlt.trans_le hruns.nextCall_le, fun a hat => ?_⟩
  rw [at_after] at hat
  split_ifs at hat with ht
  · obtain ⟨a', hwaits, rfl⟩ := hat
    subst ht
    cases hruns with
    | start => exact absurd hlt (lt_irrefl _)
    | resume hcall =>
      by_contra hseeks
      rw [Await.seeks_deaf, Bool.not_eq_false] at hseeks
      have hold := hp a' hwaits hseeks _ _ rfl
      rw [← Await.seeks_deaf, hnot _ (at_of_call hcall)] at hold
      cases hold
  · exact hnot a (part.at_iff.mp hat)

theorem LockInv.part (hs : s.LockInv) (hcond : s.LocksSettled action)
    (hruns : Runs s action t request activity next) (part : Part s t activity s₁ p) :
    (s₁.after t request next p).LockInv := by
  have hfresh := (Step.part hruns part).fresh hs.fresh
  have hexpected := (Step.part hruns part).expected hs.expected
  cases part.lockMove with
  | same hlocked htasks hrunning hunlocks hseeks =>
    refine ⟨hfresh, hexpected, ?_, ?_, ?_⟩
    · rw [after_leases]
      simpa only [leases, hlocked, htasks, hrunning] using hs.paired
    · simp only [after_blob, hlocked]
      refine part.forall_at (fun t' a _ => hs.unlocking t' a) fun a hwaits F hF => ?_
      rw [Await.unlocks_deaf] at hF
      obtain ⟨a₀, choice, rfl, ha₀⟩ := hunlocks a hwaits F hF
      exact hs.unlocking t _ hruns.at_resume F (by rwa [Await.unlocks_deaf])
    · simp only [after_blob, after_running, htasks, hrunning, after_nextCall]
      exact fun cleaner h => part.spawned_after hruns (hs.spawned cleaner h) hseeks
  | take hpicks hbatch hlocked htasks hrunning hholds =>
    rename_i a₀ a choice fileId entries nodeId
    have hsettled : s.Settled fileId := by
      cases hruns with
      | resume hcall => exact hcond _ fileId hcall hpicks
    have hnew (F : UInt32) : s.running t ≠ some F ∧ s.blob.cleanupTasks[F]? ≠ some t := by
      rw [ne_eq, ne_eq, ← not_or]
      intro hspawned
      have hseeks := (hs.spawned t ⟨F, hspawned⟩).2 _ hruns.at_resume
      rw [Await.seeks_deaf, seeks_of_picks hpicks] at hseeks
      cases hseeks
    refine ⟨hfresh, hexpected, ?_, ?_, ?_⟩
    · rw [after_leases, leases_take rfl hlocked htasks hrunning]
      exact hs.paired.take hsettled.2 hnew
    · simp only [after_blob, hlocked]
      refine part.forall_at ?_ ?_
      · intro t' a _ hat F hF
        have hne : fileId ≠ F := by
          rintro rfl
          exact hsettled.1 t' a hat hF
        rw [FiniteMap.getElem?_insert, if_neg hne]
        exact hs.unlocking t' a hat F hF
      · rintro _ ⟨⟩ F hF
        rw [Await.unlocks_deaf, hholds.1] at hF
        cases hF
    · simp only [after_blob, after_running, htasks, after_nextCall]
      rintro cleaner ⟨F, hspawned⟩
      by_cases hcleaner : t = cleaner
      · subst hcleaner
        refine ⟨(hs.fresh t _ hruns.at_resume).trans_le hruns.nextCall_le, fun a hat => ?_⟩
        rw [at_after, if_pos rfl] at hat
        obtain ⟨a', ⟨⟩, rfl⟩ := hat
        rw [Await.seeks_deaf, hholds.2.1]
      · refine part.spawned_after hruns (hs.spawned cleaner ⟨F, ?_⟩) ?_
        · rw [hrunning, if_neg hcleaner, FiniteMap.getElem?_insert] at hspawned
          apply hspawned.imp_right
          intro htask
          split_ifs at htask with hF
          · exact absurd (Option.some.inj htask) hcleaner
          · exact htask
        · rintro _ ⟨⟩ hseeks
          rw [hholds.2.1] at hseeks
          cases hseeks
  | release hlock hlocked htasks hrunning hp =>
    rename_i fileId nodeId lock
    refine ⟨hfresh, hexpected, ?_, ?_, ?_⟩
    · rw [after_leases, leases_release hlocked htasks hrunning]
      exact hs.paired.release fileId
    · simp only [after_blob, hlocked, FiniteMap.getElem?_erase]
      refine part.forall_at ?_ ?_
      · intro t' a _ hat F hF
        rw [hs.unlocking t' a hat F hF, ite_self]
      · intro a hwaits F hF
        rw [Await.unlocks_deaf, (hp a hwaits).1] at hF
        rw [if_pos (Option.some.inj hF)]
    · simp only [after_blob, after_running, htasks, hrunning, after_nextCall]
      exact fun cleaner h => part.spawned_after hruns (hs.spawned cleaner h) (by rintro _ _ _ _ _ ⟨⟩)
  | abort hunlocks hlocked htasks hrunning =>
    rename_i a₀ choice fileId r
    have hfree : s.blob.lockedFiles[fileId]? = none :=
      hs.unlocking t _ hruns.at_resume fileId (by rwa [Await.unlocks_deaf])
    refine ⟨hfresh, hexpected, ?_, ?_, ?_⟩
    · rw [after_leases, leases_abort hlocked htasks hrunning]
      exact hs.paired.abort (by rw [holder_leases, hfree, Option.map_none])
    · simp only [after_blob, hlocked]
      exact part.forall_at (fun t' a _ => hs.unlocking t' a) (by rintro _ ⟨⟩)
    · simp only [after_blob, after_running, htasks, after_nextCall]
      rintro cleaner ⟨F, hspawned⟩
      refine part.spawned_after hruns (hs.spawned cleaner ⟨F, ?_⟩) (by rintro _ ⟨⟩)
      rw [hrunning, FiniteMap.getElem?_erase] at hspawned
      split_ifs at hspawned <;> simp_all

theorem lockInv_boot {config : BlobStorageConfig} {redis : Redis} {n : CallId}
    (h : boot config redis n = some s) : s.LockInv := by
  have hfresh := fresh_boot h
  have hexpected := expected_boot h
  have hat : ∀ t a, ¬s.At t a := fun t a => not_at_boot h
  obtain ⟨b, hinit, rfl⟩ := Option.map_eq_some_iff.mp h
  obtain ⟨-, hlocked, -, htasks⟩ := init_forgets hinit
  refine ⟨hfresh, hexpected, ?_, fun t a h' => absurd h' (hat t a), ?_⟩
  · constructor <;> simp [leases, running, hlocked, htasks]
  · simp [running, htasks]

theorem LockInv.step (hs : s.LockInv) {a : Action} (hcond : s.LocksSettled a) {s' : Server}
    {es : List Event} (h : s.step a = some (s', es)) : s'.LockInv := by
  have hfresh := (step_of_eq h).fresh hs.fresh
  have hexpected := (step_of_eq h).expected hs.expected
  cases step_of_eq h with
  | part hruns part => exact hs.part hcond hruns part
  | execute hcall =>
    have hat := at_of_call hcall
    refine ⟨hfresh, hexpected, hs.paired, ?_, ?_⟩
    · refine forall_at_execute (fun t' a _ => hs.unlocking t' a) ?_
      rw [Await.unlocks_redis]
      exact hs.unlocking _ _ hat
    · intro cleaner hcleaner
      obtain ⟨hlt, hnot⟩ := hs.spawned cleaner hcleaner
      refine ⟨hlt, fun a hat' => ?_⟩
      refine forall_at_execute (Q := fun t' a => cleaner = t' → a.seeks = false) ?_ ?_ cleaner a
        hat' rfl
      · rintro t' a' - hat' rfl
        exact hnot a' hat'
      · rintro rfl
        rw [Await.seeks_redis]
        exact hnot _ hat
  | expire hcleaner hlock =>
    rename_i cleaner c lock
    have hrunning : s.running cleaner = some c.fileId := by rw [running, hcleaner, Option.map_some]
    refine ⟨hfresh, hexpected, ?_, ?_, ?_⟩
    · have hleases : (({ s with cleaners := s.cleaners.erase cleaner } : Server).removeLock
          c.fileId).leases = (s.leases.stop cleaner).release c.fileId := by
        rw [← leases_stop]
        exact leases_release rfl rfl rfl
      exact hleases ▸ hs.paired.expire hrunning
    · intro t a hat F hF
      have hnone := hs.unlocking t a ((at_notifyWaiters _).mp hat) F hF
      change (s.blob.lockedFiles.erase c.fileId)[F]? = none
      rw [FiniteMap.getElem?_erase, hnone, ite_self]
    · rintro id ⟨F, hspawned⟩
      obtain ⟨hlt, hnot⟩ := hs.spawned id ⟨F, hspawned.imp_left running_of_erase⟩
      exact ⟨hlt, fun a hat => hnot a ((at_notifyWaiters _).mp hat)⟩
  | stop hcleaner hlock =>
    rename_i cleaner c
    refine ⟨hfresh, hexpected, ?_, hs.unlocking, ?_⟩
    · rw [leases_stop]
      apply hs.paired.stop
      intro F hF
      have hrunning : s.running cleaner = some c.fileId := by
        rw [running, hcleaner, Option.map_some]
      have hfile : c.fileId = F := Option.some.inj (hrunning.symm.trans hF)
      rw [holder_leases, ← hfile, hlock, Option.map_none]
    · rintro id ⟨F, hspawned⟩
      exact hs.spawned id ⟨F, hspawned.imp_left running_of_erase⟩
  | receive hcleaner =>
    have hrunning := running_insert hcleaner false
    refine ⟨hfresh, hexpected, ?_, hs.unlocking, ?_⟩
    · simpa only [leases, hrunning] using hs.paired
    · rw [hrunning]
      exact hs.spawned
  | restart hboot => exact lockInv_boot hboot

/-- The end of a lock: by its owner, by its own cleaner, or with the server. -/
inductive EndsLock (fileId : UInt32) (lock : FileLock) : Action → Prop where
  | unlock : EndsLock fileId lock (.call (.createUnlock fileId lock.nodeId))
  | expire : EndsLock fileId lock (.tick lock.acquisition)
  | restart (config : BlobStorageConfig) : EndsLock fileId lock (.restart config)

theorem LockInv.endsLock (hs : s.LockInv) {a : Action} (hcond : s.LocksSettled a) {s' : Server}
    {es : List Event} (h : s.step a = some (s', es)) {fileId : UInt32} {lock : FileLock}
    (hlock : s.blob.lockedFiles[fileId]? = some lock)
    (hend : s'.blob.lockedFiles[fileId]? ≠ some lock) : EndsLock fileId lock a := by
  obtain ⟨-, c, hcleaner, hfile⟩ := hs.cleanersPaired fileId lock hlock
  have hrunning : s.running lock.acquisition = some fileId := by
    rw [running, hcleaner, Option.map_some, hfile]
  cases step_of_eq h with
  | part hruns part =>
    rw [after_blob] at hend
    cases part.lockMove with
    | same hlocked => exact absurd (hlocked ▸ hlock) hend
    | abort _ hlocked => exact absurd (hlocked ▸ hlock) hend
    | take hpicks hbatch hlocked htasks htaken hholds =>
      rename_i F entries nodeId
      cases hruns with
      | resume hcall =>
        have hne : F ≠ fileId := by
          rintro rfl
          exact (hcond _ F hcall hpicks).2 _ hrunning
        rw [hlocked, FiniteMap.getElem?_insert, if_neg hne] at hend
        exact absurd hlock hend
    | release hlock' hlocked htasks hsame hp =>
      rename_i F nodeId lock'
      rw [hlocked, FiniteMap.getElem?_erase] at hend
      split_ifs at hend with hF
      · subst hF
        cases hlock.symm.trans hlock'
        cases hruns with
        | start => exact hcond lock hlock ▸ .unlock
      · exact absurd hlock hend
  | execute => exact absurd hlock hend
  | expire hexpired hlock' =>
    rename_i cleaner c' lock'
    change (s.blob.lockedFiles.erase c'.fileId)[fileId]? ≠ some lock at hend
    rw [FiniteMap.getElem?_erase] at hend
    split_ifs at hend with hF
    · have hrunning' : s.running cleaner = some fileId := by
        rw [running, hexpired, Option.map_some, hF]
      have hown := hs.paired.own cleaner fileId lock.acquisition hrunning'
        (by rw [holder_leases, hlock, Option.map_some])
      exact hown ▸ .expire
    · exact absurd hlock hend
  | stop => exact absurd hlock hend
  | receive => exact absurd hlock hend
  | restart => exact .restart _

/-- `keep_alive_lock` panics only on a lock without a cleaner. -/
theorem Part.keepAlive_panicked {fileId : UInt32} (h : Part s t activity s₁ (.returns .panicked))
    (hof : activity.Of (.keepAliveLock fileId)) :
    ∃ lock, s.blob.lockedFiles[fileId]? = some lock ∧ s.blob.cleanupTasks[fileId]? = none := by
  generalize hp : Progress.returns .panicked = p at h
  cases hof with
  | start =>
    cases h with
    | keepAlivePanic hlock hnone => exact ⟨_, hlock, hnone⟩
    | _ => cases hp
  | resume hexpects =>
    cases hexpects
    cases h <;> cases hp

theorem LockInv.keepAlive (hs : s.LockInv) {a : Action} {s' : Server} {es : List Event}
    (h : s.step a = some (s', es)) {e : Event} (he : e ∈ es) {fileId : UInt32}
    (hrequest : e.request = .keepAliveLock fileId) : e.response ≠ .panicked := by
  intro hpanicked
  cases step_of_eq h with
  | part hruns part =>
    rename_i t request activity next s₁ p
    cases p with
    | waits a => cases he
    | returns r =>
      cases List.mem_singleton.mp he
      dsimp only at hrequest hpanicked
      subst hrequest hpanicked
      obtain ⟨lock, hlock, hnone⟩ := part.keepAlive_panicked (hruns.of hs.expected)
      rw [(hs.cleanersPaired fileId lock hlock).1] at hnone
      cases hnone
  | _ => cases he

/-- In a run whose steps lock settled files only, every lock has its own cleaner in every state, only
its owner or its own cleaner ends it, and no `keep_alive_lock` panics. -/
theorem cleanersPaired_of_run {config : BlobStorageConfig} {redis : Redis} {n : CallId}
    {s₀ s : Server} {es : List Event} (hboot : boot config redis n = some s₀)
    (hrun : Run Server.step LocksSettled s₀ es s) :
    s.CleanersPaired ∧
      (∀ a s' es', s.LocksSettled a → s.step a = some (s', es') → ∀ fileId lock,
        s.blob.lockedFiles[fileId]? = some lock → s'.blob.lockedFiles[fileId]? ≠ some lock →
          EndsLock fileId lock a) ∧
      ∀ e ∈ es, ∀ fileId, e.request = .keepAliveLock fileId → e.response ≠ .panicked := by
  have hs : s.LockInv := hrun.invariant (lockInv_boot hboot) fun hs hcond h => hs.step hcond h
  refine ⟨hs.cleanersPaired, ?_, ?_⟩
  · intro a s' es' hcond h fileId lock hlock hend
    exact hs.endsLock hcond h hlock hend
  · refine (hrun.invariantShown (I := fun shown s => s.LockInv ∧ ∀ e ∈ shown, ∀ fileId,
      e.request = .keepAliveLock fileId → e.response ≠ .panicked)
      ⟨lockInv_boot hboot, by simp⟩ ?_).2
    rintro shown s a s' es ⟨hs, hshown⟩ hcond h
    refine ⟨hs.step hcond h, fun e he => ?_⟩
    rcases List.mem_append.mp he with he | he
    · exact hshown e he
    · exact fun fileId hrequest => hs.keepAlive h he hrequest

/-- A file is sought by one call at a time, and only where no cleaner runs. -/
def LocksAlone (s : Server) : Action → Prop
  | .call (.createUnlock fileId nodeId) =>
    ∀ lock ∈ s.blob.lockedFiles[fileId]?, lock.nodeId = nodeId
  | .resume t _ =>
    ∀ c ∈ s.calls[t]?, c.await.seeks → s.calls.keys = [t] ∧ s.cleaners.isEmpty
  | _ => True

instance (s : Server) : (a : Action) → Decidable (s.LocksAlone a)
  | .call (.createUnlock fileId nodeId) =>
    inferInstanceAs (Decidable (∀ lock ∈ s.blob.lockedFiles[fileId]?, lock.nodeId = nodeId))
  | .resume t _ => inferInstanceAs
    (Decidable (∀ c ∈ s.calls[t]?, c.await.seeks → s.calls.keys = [t] ∧ s.cleaners.isEmpty))
  | .call (.createAndLock _ _) | .call (.keepAliveLock _) | .call (.lookup _) => isTrue trivial
  | .execute _ | .tick _ | .receive _ | .restart _ => isTrue trivial

theorem LocksAlone.settled {a : Action} (h : s.LocksAlone a) : s.LocksSettled a := by
  cases a with
  | call r =>
    cases r with
    | createUnlock fileId nodeId => exact h
    | _ => trivial
  | resume t choice =>
    intro c fileId hcall hpicks
    obtain ⟨hkeys, hcleaners⟩ := h c hcall (seeks_of_picks hpicks)
    refine ⟨fun t' a hat hunlocks => ?_, fun cleaner hrunning => ?_⟩
    · obtain ⟨c', hcall', hawait⟩ := Option.map_eq_some_iff.mp hat
      have hmem : t' ∈ s.calls.keys := ExtTreeMap.mem_keys.mpr
        (FiniteMap.mem_iff_getElem?.mpr ⟨c', hcall'⟩)
      rw [hkeys, List.mem_singleton] at hmem
      subst hmem
      cases hcall.symm.trans hcall'
      rw [← hawait, Await.unlocks_deaf] at hunlocks
      cases hc : c.await with
      | redis k reply =>
        rw [hc] at hpicks
        cases hpicks
      | _ =>
        rw [hc] at hunlocks
        cases hunlocks
    · rw [running, ExtTreeMap.isEmpty_iff.mp hcleaners, ExtTreeMap.getElem?_empty] at hrunning
      cases hrunning
  | _ => trivial

/-- A creation of call 0 in the only file. -/
def creation : List Action :=
  [.call (.createAndLock [⟨"a", 1⟩] "node"), .execute 0, .resume 0 0, .resume 0 0, .execute 0,
    .resume 0 0, .execute 0, .resume 0 0, .execute 0, .resume 0 0]

theorem cleanersPaired_of_run_creation : ∃ s₀ es s, boot ⟨1⟩ ∅ 0 = some s₀ ∧
    Run Server.step LocksAlone s₀ es s ∧ s.blob.lockedFiles.keys = [0] ∧ s.CleanersPaired ∧
      ∀ e ∈ es, ∀ fileId, e.request = .keepAliveLock fileId → e.response ≠ .panicked := by
  obtain ⟨s₀, hboot, hexec⟩ := Option.bind_eq_some_iff.mp
    (show ((boot ⟨1⟩ ∅ 0).bind fun s₀ => (exec Server.step LocksAlone s₀
      (creation ++ [.call (.keepAliveLock 0), .resume 1 0])).map
        fun r => r.1.blob.lockedFiles.keys) = some [0] by decide +kernel)
  obtain ⟨s, es, hrun, hkeys⟩ := exists_run_of_exec hexec
  have hpaired := cleanersPaired_of_run hboot (hrun.mono fun _ _ => LocksAlone.settled)
  exact ⟨s₀, es, s, hboot, hrun, hkeys, hpaired.1, hpaired.2.2⟩

/-- Another creation takes the file between the two halves of the unlock. -/
def relocked : List Action :=
  creation ++ [.call (.createUnlock 0 "node"),
    .call (.createAndLock [⟨"b", 1⟩] "node"), .execute 2, .resume 2 0, .resume 2 0,
    .execute 1, .resume 1 0, .call (.keepAliveLock 0)]

/-- The unlock aborts the cleaner of the new lock instead of the old one, and `keep_alive_lock`
panics. -/
theorem not_cleanersPaired_relocked : ∃ s₀ es s, boot ⟨1⟩ ∅ 0 = some s₀ ∧
    Run Server.step (fun _ _ => True) s₀ es s ∧ ¬s.CleanersPaired ∧ s.cleaners.keys = [0] ∧
      ⟨3, .keepAliveLock 0, .panicked⟩ ∈ es := by
  obtain ⟨s₀, hboot, hexec⟩ := Option.bind_eq_some_iff.mp
    (show ((boot ⟨1⟩ ∅ 0).bind fun s₀ => (exec Server.step (fun _ _ => True) s₀ relocked).map
      fun r => (r.1.blob.lockedFiles[(0 : UInt32)]?, r.1.blob.cleanupTasks[(0 : UInt32)]?,
        r.1.cleaners.keys, decide (⟨3, .keepAliveLock 0, .panicked⟩ ∈ r.2))) =
          some (some ⟨"node", ["b"], 2⟩, none, [0], true) by decide +kernel)
  obtain ⟨s, es, hrun, hend⟩ := exists_run_of_exec hexec
  simp only [Prod.mk.injEq, decide_eq_true_eq] at hend
  obtain ⟨hlock, htask, hcleaners, hevent⟩ := hend
  refine ⟨s₀, es, s, hboot, hrun, fun hpaired => ?_, hcleaners, hevent⟩
  rw [(hpaired 0 _ hlock).1] at htask
  cases htask

end Server

end NpmFollower.BlobIdxServer
