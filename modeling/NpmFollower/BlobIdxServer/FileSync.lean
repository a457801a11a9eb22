import NpmFollower.BlobIdxServer.FileIds
import NpmFollower.BlobIdxServer.Sequential

/-! # The file pool in a sequence of calls

When calls come one after the other, the pool in memory is the one that a restart
would load, once Redis has executed what is on its way.
-/

namespace NpmFollower.BlobIdxServer

open Std PostgresDb Runs

namespace Server

/-- The pool in memory is what a restart loads from Redis, unless its key was overwritten. -/
structure FilesSynced (b : BlobStorage) (r : Redis) : Prop where
  named : ∀ id (info : FileInfo), b.filePool[id]? = some info → info.fileId = id
  readable : r.FilesReadable
  synced : ¬r.Clobbered → ∀ id, b.filePool[id]? = r.storedFile id

variable {s s₁ : Server} {t : CallId} {request : Request} {activity : Activity} {p : Progress}
  {action : Action} {next : CallId}

theorem FilesSynced.hset {b b' : BlobStorage} {r : Redis} (h : FilesSynced b r) {id : UInt32}
    {info : FileInfo} (hid : info.fileId = id) (hpool : b'.filePool = b.filePool.insert id info) :
    FilesSynced b' (r.execute (.hset info.fileId info.serialize)).1 where
  named := by
    intro id' info' hinfo
    rw [hpool, FiniteMap.getElem?_insert] at hinfo
    split_ifs at hinfo with heq
    · cases hinfo
      exact hid.trans heq
    · exact h.named id' info' hinfo
  readable := h.readable.hset info
  synced := by
    intro hcalm id'
    have hr : ¬r.Clobbered := fun hr => hcalm (hr.execute _)
    rw [Redis.storedFile_hset hr, hpool, FiniteMap.getElem?_insert, h.synced hr, hid]

theorem FilesSynced.of_pool {b b' : BlobStorage} {r r' : Redis} (h : FilesSynced b r)
    (hpool : b'.filePool = b.filePool)
    (hr : r'[filePoolKey]? = r[filePoolKey]? ∨ r'.Clobbered) : FilesSynced b' r' where
  named := hpool ▸ h.named
  readable := h.readable.of_eq hr
  synced := by
    intro hcalm id
    rcases hr with hr | hr
    · have hold : ¬r.Clobbered := by
        rintro ⟨text, htext⟩
        exact hcalm ⟨text, hr.trans htext⟩
      rw [hpool, h.synced hold, Redis.storedFile, Redis.storedFile, hr]
    · exact absurd hr hcalm

theorem flush_filePoolKey (hp : ∀ a, p = .waits a → a.savedFile = none) (r : Redis) :
    (p.flush r)[filePoolKey]? = r[filePoolKey]? ∨ (p.flush r).Clobbered := by
  cases p with
  | returns => exact .inl rfl
  | waits a =>
    cases a with
    | redis k reply => exact Redis.execute_filePoolKey (command_ne_hset (hp _ rfl))
    | _ => exact .inl rfl

theorem FilesSynced.part (h : FilesSynced s.blob s.redis) (part : Part s t activity s₁ p) :
    FilesSynced s₁.blob (p.flush s.redis) := by
  cases part.poolMove with
  | same hpool hp => exact h.of_pool hpool (flush_filePoolKey hp _)
  | add entries nodeId hsize hpool => exact h.hset rfl hpool
  | grow entries nodeId fileId info needsCreation hinfo hpool =>
    have hid : (info.grow entries).fileId = fileId := h.named fileId info hinfo
    exact h.hset hid hpool

theorem FilesSynced.restart {b b' : BlobStorage} {r : Redis} {config : BlobStorageConfig}
    (h : FilesSynced b r) (hinit : BlobStorage.init config r = some b') : FilesSynced b' r where
  named := by
    intro id info hinfo
    rw [init_filePool h.readable hinit] at hinfo
    exact h.readable.fileId_eq hinfo
  readable := h.readable
  synced := fun _ id => init_filePool h.readable hinit id

theorem not_clobbered_of_init {b : BlobStorage} {r : Redis} {config : BlobStorageConfig}
    (hinit : BlobStorage.init config r = some b) : ¬r.Clobbered := by
  rintro ⟨text, htext⟩
  rw [BlobStorage.init, htext] at hinit
  cases hinit

/-- A restart finds the files as they were. -/
theorem FilesSynced.init_eq {b b' : BlobStorage} {r : Redis} {config : BlobStorageConfig}
    (h : FilesSynced b r) (hinit : BlobStorage.init config r = some b') (id : UInt32) :
    b'.filePool[id]? = b.filePool[id]? := by
  rw [init_filePool h.readable hinit, h.synced (not_clobbered_of_init hinit)]

theorem Alone.crashAtNoGap {a : Action} (h : s.Alone a) : s.CrashAtNoGap a := by
  cases a with
  | restart config =>
    rintro fileId ⟨t, entries, nodeId, info, hat⟩
    cases RedisIdle.eq h hat rfl
  | _ => trivial

/-- The pool in a sequence of calls. -/
structure PoolInv (s : Server) : Prop where
  alone : s.AloneInv
  ids : s.IdsInv
  files : ∀ r, s.Flushed r → FilesSynced s.blob r

theorem PoolInv.step (hs : s.PoolInv) {a : Action} (halone : s.Alone a) {s' : Server}
    {es : List Event} (h : s.step a = some (s', es)) : s'.PoolInv where
  alone := hs.alone.step halone h
  ids := hs.ids.step halone.crashAtNoGap h
  files := by
    refine hs.alone.flushed_step hs.files halone h ?_ ?_ ?_
    · exact fun _ part hfiles => hfiles.part part
    · exact fun _ _ hfiles => ⟨hfiles.named, hfiles.readable, hfiles.synced⟩
    · exact fun _ _ hfiles hinit => hfiles.restart hinit

theorem poolInv_boot {config : BlobStorageConfig} (h : boot config ∅ 0 = some s) : s.PoolInv where
  alone := aloneInv_boot h
  ids := idsInv_boot h
  files := by
    intro r hr
    cases flushed_boot h hr
    obtain ⟨b, hinit, rfl⟩ := Option.map_eq_some_iff.mp h
    have hreadable : (∅ : Redis).FilesReadable := by simp [Redis.FilesReadable]
    constructor
    case named =>
      intro id info hinfo
      change b.filePool[id]? = some info at hinfo
      rw [init_filePool hreadable hinit] at hinfo
      exact hreadable.fileId_eq hinfo
    case readable => exact hreadable
    case synced => exact fun _ => init_filePool hreadable hinit

end Server

end NpmFollower.BlobIdxServer
