import NpmFollower.BlobIdxServer.FileSync

/-! # The key map in a sequence of calls

When calls come one after the other and none reserves the key of the file pool,
every entry of the map is in Redis, but for its lock, once Redis has executed
what is on its way. The keys of a lock are in the map when its creation is done.
-/

namespace NpmFollower.BlobIdxServer

open Std PostgresDb Runs

namespace LockWrapper

/-- The entry as it is in Redis. -/
def unlocked (l : LockWrapper) : LockWrapper := { l with lock := none }

theorem lock_of_deserialize {v : Value} {l : LockWrapper} (h : deserialize v = some l) :
    l.lock = none := by
  simp only [deserialize, Option.bind_eq_bind, Option.bind_eq_some_iff, pure, Option.some.injEq] at h
  obtain ⟨m, -, value, -, slice, -, text, -, written, -, rfl⟩ := h
  rfl

theorem unlocked_of_deserialize {v : Value} {l : LockWrapper} (h : deserialize v = some l) :
    l.unlocked = l := by
  obtain ⟨slice, written, lock⟩ := l
  cases lock_of_deserialize h
  rfl

end LockWrapper

/-- The key that the call asks Redis for. -/
def Await.asks : Await → Option String
  | .redis (.checkKey _ _ key _) _ => some key
  | .redis (.markKey _ key _ _) _ => some key
  | .redis (.lookup key) _ => some key
  | _ => none

@[simp] theorem Await.asks_deaf (a : Await) : a.deaf.asks = a.asks := by cases a <;> rfl

/-- What the call writes to Redis under keys of its own. -/
def Continuation.items : Continuation → List (String × Value)
  | .setSlices _ toSetInRedis => toSetInRedis
  | .setWritten _ toSetInRedis => toSetInRedis
  | _ => []

def Progress.items : Progress → List (String × Value)
  | .waits (.redis k _) => k.items
  | _ => []

namespace Redis

variable {r : Redis}

/-- What a command does under the other keys than that of the file pool. -/
theorem getElem?_execute (k : Continuation) {key : String} (hkey : key ≠ filePoolKey) :
    (r.execute k.command).1[key]? = (r.setMultiple k.items)[key]? := by
  have hget (k' : String) : (r.execute (.get k')).1 = r := by
    rw [execute]
    split <;> rfl
  have hhset (info : FileInfo) :
      (r.execute (.hset info.fileId info.serialize)).1[key]? = r[key]? := by
    rw [execute]
    split
    · exact FiniteMap.getElem?_insert_of_ne _ _ hkey.symm
    · exact FiniteMap.getElem?_insert_of_ne _ _ hkey.symm
    · rfl
  have hset (items : List (String × Value)) :
      (r.execute (.setMultiple items)).1 = r.setMultiple items := by
    cases items <;> rfl
  cases k with
  | addFile => exact hhset _
  | setSize => exact hhset _
  | setSlices => rw [Continuation.command, hset, Continuation.items]
  | setWritten => rw [Continuation.command, hset, Continuation.items]
  | checkKey => rw [Continuation.command, hget]; rfl
  | markKey => rw [Continuation.command, hget]; rfl
  | lookup => rw [Continuation.command, hget]; rfl

theorem Clobbered.of_execute {k : Continuation} (h : (r.execute k.command).1.Clobbered)
    (hitems : ∀ e ∈ k.items, e.1 ≠ filePoolKey) : r.Clobbered := by
  obtain ⟨text, htext⟩ := h
  have hset {items : List (String × Value)} (hitems : ∀ e ∈ items, e.1 ≠ filePoolKey)
      (h : (r.execute (.setMultiple items)).1[filePoolKey]? = some (.string text)) :
      r.Clobbered := by
    rw [Redis.execute] at h
    split_ifs at h
    · exact ⟨text, h⟩
    · rcases getElem?_setMultiple items filePoolKey with ⟨heq, -⟩ | ⟨text', hmem, -⟩
      · exact ⟨text, heq.symm.trans h⟩
      · exact absurd rfl (hitems _ hmem)
  have hget {key : String} (h : (r.execute (.get key)).1[filePoolKey]? = some (.string text)) :
      r.Clobbered := by
    rw [Redis.execute] at h
    split at h <;> exact ⟨text, h⟩
  have hhset {info : FileInfo}
      (h : (r.execute (.hset info.fileId info.serialize)).1[filePoolKey]? = some (.string text)) :
      r.Clobbered := by
    by_contra hr
    obtain ⟨fields, hfields, -⟩ := execute_hset hr info.fileId info.serialize
    rw [hfields] at h
    cases h
  cases k with
  | addFile => exact hhset htext
  | setSize => exact hhset htext
  | setSlices => exact hset hitems htext
  | setWritten => exact hset hitems htext
  | checkKey => exact hget htext
  | markKey => exact hget htext
  | lookup => exact hget htext

end Redis

namespace Server

/-- Every entry of the map is in Redis, but for its lock. -/
structure KeysSynced (b : BlobStorage) (r : Redis) : Prop where
  stored : ∀ key (l : LockWrapper), b.map[key]? = some l → key ≠ filePoolKey ∧
    ∃ text, r[key]? = some (.string text) ∧ LockWrapper.deserialize text = some l.unlocked
  readable : ∀ key ≠ filePoolKey, ∀ v, r[key]? = some v →
    ∃ text l, v = .string text ∧ LockWrapper.deserialize text = some l
  calm : ¬r.Clobbered

theorem KeysSynced.flush {b b' : BlobStorage} {r : Redis} {p : Progress} (h : KeysSynced b r)
    (hitems : ∀ e ∈ p.items, e.1 ≠ filePoolKey ∧ ∃ l, LockWrapper.deserialize e.2 = some l ∧
      ∀ l', b'.map[e.1]? = some l' → l = l'.unlocked)
    (hmap : ∀ key l, b'.map[key]? = some l → key ∉ p.items.map Prod.fst → key ≠ filePoolKey ∧
      ∃ text, r[key]? = some (.string text) ∧ LockWrapper.deserialize text = some l.unlocked) :
    KeysSynced b' (p.flush r) := by
  have hget {key : String} (hkey : key ≠ filePoolKey) :
      (p.flush r)[key]? = (r.setMultiple p.items)[key]? := by
    cases p with
    | returns => rfl
    | waits a =>
      cases a with
      | redis k reply => exact Redis.getElem?_execute k hkey
      | _ => rfl
  constructor
  case stored =>
    intro key l hl
    rcases Redis.getElem?_setMultiple p.items key with ⟨heq, hnot⟩ | ⟨text, hmem, heq⟩
    · obtain ⟨hkey, text, htext, hread⟩ := hmap key l hl hnot
      exact ⟨hkey, text, (hget hkey).trans (heq.trans htext), hread⟩
    · obtain ⟨hkey, l', hread, hsame⟩ := hitems _ hmem
      exact ⟨hkey, text, (hget hkey).trans heq, hsame l hl ▸ hread⟩
  case readable =>
    intro key hkey v hv
    rw [hget hkey] at hv
    rcases Redis.getElem?_setMultiple p.items key with ⟨heq, -⟩ | ⟨text, hmem, heq⟩
    · exact h.readable key hkey v (heq ▸ hv)
    · obtain ⟨-, l', hread, -⟩ := hitems _ hmem
      cases heq.symm.trans hv
      exact ⟨text, l', rfl, hread⟩
  case calm =>
    intro hclobbered
    cases p with
    | returns => exact h.calm hclobbered
    | waits a =>
      cases a with
      | redis k reply => exact h.calm (hclobbered.of_execute fun e he => (hitems e he).1)
      | _ => exact h.calm hclobbered

variable {s s₁ : Server} {t : CallId} {request : Request} {activity : Activity} {p : Progress}
  {action : Action} {next : CallId}

/-- The batches past their checks do not reserve the key of the file pool. -/
def AcceptsLegal (s : Server) : Prop :=
  ∀ t entries nodeId, s.At t (.fileLock entries nodeId) → filePoolKey ∉ keysOf entries

/-- The keys of the locks and of the calls in flight, and the map over Redis. -/
structure KeyInv (s : Server) : Prop where
  pool : s.PoolInv
  keys : ∀ r, s.Flushed r → KeysSynced s.blob r
  accepted : ∀ t a, s.At t a → ∀ entries ∈ a.batch, filePoolKey ∉ keysOf entries
  asked : ∀ t a, s.At t a → ∀ key ∈ a.asks, key ≠ filePoolKey
  marked : ∀ t a, s.At t a → ∀ fileId key rest items reply,
    a ≠ .redis (.markKey fileId key rest items) reply
  /-- The keys of a lock are in the map, or its creation will put them there. -/
  locks : ∀ (fileId : UInt32) (lock : FileLock), s.blob.lockedFiles[fileId]? = some lock →
    filePoolKey ∉ lock.keys ∧ ((∀ key ∈ lock.keys, key ∈ s.blob.map) ∨
      ∃ a, s.At lock.acquisition a ∧ a.isRedis ∧ a.batch.map keysOf = some lock.keys)

theorem AloneInv.redis_get (hs : s.AloneInv) {k : Continuation} {key : String} {v : Value}
    (hat : s.At t (.redis k (some (.text (some v))))) (hk : k.command = .get key) :
    s.redis[key]? = some (.string v) := by
  obtain ⟨r, hreply, hredis⟩ := hs.answered t _ hat k _ rfl
  rw [hk, Redis.execute] at hreply hredis
  split at hreply
  · cases hreply
  · rename_i heq
    cases hreply
    rw [heq] at hredis
    exact hredis ▸ heq
  · cases hreply

section Parts

theorem KeysSynced.same {b b' : BlobStorage} {r : Redis} (h : KeysSynced b r)
    (hmap : b'.map = b.map) (hitems : p.items = []) : KeysSynced b' (p.flush r) := by
  apply h.flush
  · simp [hitems]
  · intro key l hl _
    exact h.stored key l (hmap ▸ hl)

theorem KeysSynced.load {b b' : BlobStorage} {r : Redis} (h : KeysSynced b r) {key : String}
    {v : Value} {l : LockWrapper} (hkey : key ≠ filePoolKey) (hv : r[key]? = some (.string v))
    (hl : LockWrapper.deserialize v = some l) (hmap : b'.map = b.map.insert key l)
    (hitems : p.items = []) : KeysSynced b' (p.flush r) := by
  apply h.flush
  · simp [hitems]
  · intro key' l' hl' _
    rw [hmap, FiniteMap.getElem?_insert] at hl'
    split_ifs at hl' with heq
    · cases hl'
      subst heq
      exact ⟨hkey, v, hv, by rw [hl, LockWrapper.unlocked_of_deserialize hl]⟩
    · exact h.stored key' l' hl'

theorem items_checked {b : BlobStorage} {entries : List BlobEntry} {nodeId : String}
    {keys : List String} (h : b.Checked entries nodeId keys p) : p.items = [] := by
  cases h <;> rfl

theorem items_startLookup (b : BlobStorage) (key : String) : (b.startLookup key).items = [] := by
  rw [BlobStorage.startLookup]
  split_ifs
  · rfl
  · cases b.map[key]? <;> rfl

theorem KeysSynced.publish {b : BlobStorage} {r : Redis} (h : KeysSynced b r)
    {entries : List BlobEntry} (hkeys : (keysOf entries).Nodup)
    (hlegal : filePoolKey ∉ keysOf entries) (nodeId : String) (fileId : UInt32)
    (needsCreation : Bool) (byteOffset : UInt64) (info : FileInfo) :
    KeysSynced (b.publish entries nodeId fileId needsCreation byteOffset info).1
      ((b.publish entries nodeId fileId needsCreation byteOffset info).2.flush r) := by
  have hnodup := BlobStorage.keys_wrappersFrom entries nodeId fileId byteOffset info ▸ hkeys
  rw [BlobStorage.publish_eq]
  apply h.flush
  · intro e he
    obtain ⟨w, hw, rfl⟩ := List.mem_map.mp he
    have hkey : w.1 ∈ keysOf entries := by
      rw [← BlobStorage.keys_wrappersFrom entries nodeId fileId byteOffset info]
      exact List.mem_map_of_mem hw
    refine ⟨fun heq => hlegal (heq ▸ hkey), w.2.unlocked, w.2.deserialize_serialize, ?_⟩
    intro l' hl'
    dsimp only at hl'
    rw [FiniteMap.getElem?_foldl_insert_of_mem hnodup _ hw] at hl'
    cases hl'
    rfl
  · intro key l hl hnot
    apply h.stored key l
    rwa [FiniteMap.getElem?_foldl_insert_of_not_mem] at hl
    rintro w hw rfl
    apply hnot
    rw [Progress.items, Continuation.items, List.map_map]
    exact List.mem_map_of_mem hw

theorem markable_eq {b : BlobStorage} {keys : List String} (hlegal : filePoolKey ∉ keys)
    (hmem : ∀ key ∈ keys, key ∈ b.map) : b.markable keys = keys := by
  rw [BlobStorage.markable, List.takeWhile_eq_self_iff]
  intro key hkey
  have hne : key ≠ filePoolKey := fun heq => hlegal (heq ▸ hkey)
  simp [hne, hmem key hkey]

/-- The marks of keys that are all in the map. -/
theorem markKeys_of_mem {b : BlobStorage} {keys : List String} (hlegal : filePoolKey ∉ keys)
    (hmem : ∀ key ∈ keys, key ∈ b.map) (fileId : UInt32) (toSet : List (String × Value)) :
    ∃ items : List (String × Value), (b.markKeys fileId keys toSet).2 =
        .waits (.redis (.setWritten fileId (toSet ++ items)) none) ∧
      items.map Prod.fst = keys ∧ ∀ e ∈ items, ∃ l : LockWrapper, b.map[e.1]? = some l ∧
        e.2 = l.marked.serialize := by
  have hmarked := BlobStorage.markKeys_marked (b := b) fileId keys toSet
  generalize (b.markKeys fileId keys toSet).2 = p at hmarked ⊢
  cases hmarked with
  | all items hkeys hitems htexts => exact ⟨items, rfl, hitems, htexts⟩
  | asks pre key rest items hsplit hpre hkey hnone =>
    have hmem' := hmem key (by rw [hsplit]; simp)
    rw [FiniteMap.mem_iff_getElem?, hnone] at hmem'
    obtain ⟨l, ⟨⟩⟩ := hmem'
  | reserved hkey => exact absurd hkey hlegal

theorem KeysSynced.mark {b : BlobStorage} {r : Redis} (h : KeysSynced b r) {keys : List String}
    (hlegal : filePoolKey ∉ keys) (hmem : ∀ key ∈ keys, key ∈ b.map) (fileId : UInt32) :
    KeysSynced (b.markKeys fileId keys []).1 ((b.markKeys fileId keys []).2.flush r) := by
  obtain ⟨items, hp, hitems, htexts⟩ := markKeys_of_mem hlegal hmem fileId []
  rw [List.nil_append] at hp
  rw [hp]
  apply h.flush
  · intro e he
    have hkey : e.1 ∈ keys := hitems ▸ List.mem_map_of_mem he
    obtain ⟨l, hl, htext⟩ := htexts e he
    refine ⟨fun heq => hlegal (heq ▸ hkey), l.marked, by rw [htext]; exact l.marked.deserialize_serialize, ?_⟩
    intro l' hl'
    rw [BlobStorage.markKeys_map, markable_eq hlegal hmem, if_pos hkey, hl] at hl'
    cases hl'
    rfl
  · intro key l hl hnot
    rw [Progress.items, Continuation.items, hitems] at hnot
    rw [BlobStorage.markKeys_map, markable_eq hlegal hmem, if_neg hnot] at hl
    exact h.stored key l hl

/-- When a call starts, the keys of every lock are in the map. -/
theorem KeyInv.locks_mem (hs : s.KeyInv) {r : Request}
    (hruns : Runs s action t request (.start r) next) (halone : s.Alone action) {fileId : UInt32}
    {lock : FileLock} (hlock : s.blob.lockedFiles[fileId]? = some lock) :
    filePoolKey ∉ lock.keys ∧ ∀ key ∈ lock.keys, key ∈ s.blob.map := by
  obtain ⟨hlegal, hmem | ⟨a, hat, ha, -⟩⟩ := hs.locks fileId lock hlock
  · exact ⟨hlegal, hmem⟩
  · cases hruns
    cases RedisIdle.eq halone hat ha

theorem KeyInv.synced_part (hs : s.KeyInv) (hruns : Runs s action t request activity next)
    (halone : s.Alone action) (part : Part s t activity s₁ p) (h : KeysSynced s.blob s.redis) :
    KeysSynced s₁.blob (p.flush s.redis) := by
  have hof := hruns.of hs.pool.alone.expected
  cases part with
  | check hp => exact h.same rfl (items_checked hp)
  | checkAbsent hp => exact h.same rfl (items_checked hp)
  | checkLoaded hl hp =>
    have hkey := hs.asked t _ hruns.at_resume _ rfl
    exact h.load hkey (hs.pool.alone.redis_get hruns.at_resume rfl) hl rfl (items_checked hp)
  | publish needsCreation byteOffset info =>
    have hlegal := hs.accepted t _ hruns.at_resume _ rfl
    cases hof with
    | resume hexpects =>
      cases hexpects with
      | setSize hkeys => exact h.publish hkeys hlegal _ _ needsCreation byteOffset info
  | unlock hlock hnode =>
    rename_i fileId nodeId lock
    obtain ⟨hlegal, hmem⟩ := hs.locks_mem hruns halone hlock
    have hremoved : KeysSynced (s.removeLock fileId).blob s.redis := ⟨h.stored, h.readable, h.calm⟩
    exact hremoved.mark hlegal hmem fileId
  | markLoaded hl => exact absurd rfl (hs.marked t _ hruns.at_resume _ _ _ _ _)
  | unlocked hinfo => exact h.same (by rw [abortCleaner_eq]; rfl) rfl
  | unlockedNone hnone => exact h.same (by rw [abortCleaner_eq]) rfl
  | lookup => exact h.same rfl (items_startLookup _ _)
  | lookupLoaded hl =>
    have hkey := hs.asked t _ hruns.at_resume _ rfl
    exact h.load hkey (hs.pool.alone.redis_get hruns.at_resume rfl) hl rfl (items_startLookup _ _)
  | _ => exact h.same rfl rfl

theorem batch_checked {b : BlobStorage} {entries : List BlobEntry} {nodeId : String}
    {keys : List String} (h : b.Checked entries nodeId keys p) :
    ∀ a, p = .waits a → ∀ batch ∈ a.batch, ∃ nodeId, a = .fileLock batch nodeId := by
  cases h with
  | passed => rintro _ ⟨⟩ _ ⟨⟩; exact ⟨_, rfl⟩
  | _ => rintro _ ⟨⟩ <;> rintro _ ⟨⟩

theorem batch_marked {b : BlobStorage} {fileId : UInt32} {keys : List String}
    {toSet : List (String × Value)} (h : b.Marked fileId keys toSet p) :
    ∀ a, p = .waits a → a.batch = none := by
  cases h <;> rintro _ ⟨⟩ <;> rfl

theorem batch_startLookup (b : BlobStorage) (key : String) :
    ∀ a, b.startLookup key = .waits a → a.batch = none := by
  intro a ha
  rw [BlobStorage.startLookup] at ha
  split_ifs at ha
  split at ha <;> cases ha
  rfl

/-- A batch has just passed its checks, or the call had it before. -/
theorem Part.batch (h : Part s t activity s₁ p) : ∀ a, p = .waits a → ∀ entries ∈ a.batch,
    (∃ nodeId, a = .fileLock entries nodeId) ∨
      ∃ a₀ choice, activity = .resume a₀ choice ∧ entries ∈ a₀.batch := by
  cases h with
  | check hp => exact fun a ha entries hb => .inl (batch_checked hp a ha entries hb)
  | checkAbsent hp => exact fun a ha entries hb => .inl (batch_checked hp a ha entries hb)
  | checkLoaded hl hp => exact fun a ha entries hb => .inl (batch_checked hp a ha entries hb)
  | publish needsCreation byteOffset info =>
    rw [BlobStorage.publish_eq]
    rintro _ ⟨⟩ _ ⟨⟩
  | unlock hlock hnode =>
    intro a ha entries hb
    rw [batch_marked (BlobStorage.markKeys_marked _ _ _) a ha] at hb
    cases hb
  | markLoaded hl =>
    intro a ha entries hb
    rw [batch_marked (BlobStorage.markKeys_marked _ _ _) a ha] at hb
    cases hb
  | lookup =>
    intro a ha entries hb
    rw [batch_startLookup _ _ a ha] at hb
    cases hb
  | lookupLoaded hl =>
    intro a ha entries hb
    rw [batch_startLookup _ _ a ha] at hb
    cases hb
  | pickNew => rintro _ ⟨⟩ _ ⟨⟩; exact .inr ⟨_, _, rfl, rfl⟩
  | pickFree => rintro _ ⟨⟩ _ ⟨⟩; exact .inr ⟨_, _, rfl, rfl⟩
  | pickWait => rintro _ ⟨⟩ _ ⟨⟩; exact .inr ⟨_, _, rfl, rfl⟩
  | notified => rintro _ ⟨⟩ _ ⟨⟩; exact .inr ⟨_, _, rfl, rfl⟩
  | reserve => rintro _ ⟨⟩ _ ⟨⟩; exact .inr ⟨_, _, rfl, rfl⟩
  | _ => rintro _ ⟨⟩ <;> rintro _ ⟨⟩

theorem asks_checked {b : BlobStorage} {entries : List BlobEntry} {nodeId : String}
    {keys : List String} (h : b.Checked entries nodeId keys p) :
    ∀ a, p = .waits a → ∀ key ∈ a.asks, key ≠ filePoolKey := by
  cases h with
  | asks pre key rest hkeys hpre hkey => rintro _ ⟨⟩ _ ⟨⟩; exact hkey
  | _ => rintro _ ⟨⟩ <;> rintro _ ⟨⟩

theorem asks_marked {b : BlobStorage} {fileId : UInt32} {keys : List String}
    {toSet : List (String × Value)} (h : b.Marked fileId keys toSet p) :
    ∀ a, p = .waits a → ∀ key ∈ a.asks, key ≠ filePoolKey := by
  cases h with
  | asks pre key rest items hsplit hpre hkey => rintro _ ⟨⟩ _ ⟨⟩; exact hkey
  | _ => rintro _ ⟨⟩ <;> rintro _ ⟨⟩

theorem asks_startLookup (b : BlobStorage) (key : String) :
    ∀ a, b.startLookup key = .waits a → ∀ key ∈ a.asks, key ≠ filePoolKey := by
  intro a ha key' hkey'
  rw [BlobStorage.startLookup] at ha
  split_ifs at ha with hkey
  split at ha <;> cases ha
  cases hkey'
  exact hkey

/-- No call asks Redis for the key of the file pool. -/
theorem Part.asks (h : Part s t activity s₁ p) :
    ∀ a, p = .waits a → ∀ key ∈ a.asks, key ≠ filePoolKey := by
  cases h with
  | check hp => exact asks_checked hp
  | checkAbsent hp => exact asks_checked hp
  | checkLoaded hl hp => exact asks_checked hp
  | publish needsCreation byteOffset info =>
    rw [BlobStorage.publish_eq]
    rintro _ ⟨⟩ _ ⟨⟩
  | unlock hlock hnode => exact asks_marked (BlobStorage.markKeys_marked _ _ _)
  | markLoaded hl => exact asks_marked (BlobStorage.markKeys_marked _ _ _)
  | lookup => exact asks_startLookup _ _
  | lookupLoaded hl => exact asks_startLookup _ _
  | _ => rintro _ ⟨⟩ <;> rintro _ ⟨⟩

theorem mem_insert_of_mem {m : DashMap String LockWrapper} {key key' : String} {l : LockWrapper}
    (h : key ∈ m) : key ∈ m.insert key' l := FiniteMap.mem_insert.mpr (.inr h)

theorem mem_foldl_insert {m : DashMap String LockWrapper} {key : String} (h : key ∈ m)
    (l : List (String × LockWrapper)) : key ∈ l.foldl (fun m e => m.insert e.1 e.2) m := by
  induction l generalizing m with
  | nil => exact h
  | cons e l ih => exact ih (mem_insert_of_mem h)

theorem mem_markKeys {b : BlobStorage} {key : String} (h : key ∈ b.map) (fileId : UInt32)
    (keys : List String) (toSet : List (String × Value)) :
    key ∈ (b.markKeys fileId keys toSet).1.map := by
  obtain ⟨l, hl⟩ := FiniteMap.mem_iff_getElem?.mp h
  rw [FiniteMap.mem_iff_getElem?, BlobStorage.markKeys_map, hl]
  split_ifs
  · exact ⟨_, rfl⟩
  · exact ⟨_, rfl⟩

/-- Keys stay in the map. -/
theorem Part.mem_map (h : Part s t activity s₁ p) {key : String} (hkey : key ∈ s.blob.map) :
    key ∈ s₁.blob.map := by
  cases h with
  | checkLoaded hl hp => exact mem_insert_of_mem hkey
  | lookupLoaded hl => exact mem_insert_of_mem hkey
  | publish needsCreation byteOffset info =>
    rw [BlobStorage.publish_eq]
    exact mem_foldl_insert hkey _
  | unlock hlock hnode =>
    rename_i fileId nodeId lock
    exact mem_markKeys (b := (s.removeLock fileId).blob) hkey _ _ _
  | markLoaded hl => exact mem_markKeys (mem_insert_of_mem hkey) _ _ _
  | unlocked hinfo => rw [abortCleaner_eq]; exact hkey
  | unlockedNone hnone => rw [abortCleaner_eq]; exact hkey
  | _ => exact hkey

theorem KeyInv.marked_part (hs : s.KeyInv) (hruns : Runs s action t request activity next)
    (halone : s.Alone action) (part : Part s t activity s₁ p) :
    ∀ a, p = .waits a → ∀ fileId key rest items reply,
      a ≠ .redis (.markKey fileId key rest items) reply := by
  rintro a hp fileId key rest items reply rfl
  have hof := hruns.of hs.pool.alone.expected
  have hexpects := part.expects hof _ hp
  cases hexpects
  cases hof with
  | start =>
    cases part with
    | notLocked => cases hp
    | wrongNode => cases hp
    | unlock hlock hnode =>
      obtain ⟨hlegal, hmem⟩ := hs.locks_mem hruns halone hlock
      obtain ⟨items', heq, -⟩ := markKeys_of_mem (b := (s.removeLock fileId).blob) hlegal hmem
        fileId []
      cases heq.symm.trans hp
  | resume hexpects =>
    cases hexpects with
    | markKey => exact hs.marked t _ hruns.at_resume _ _ _ _ _ rfl
    | setWritten => cases part <;> cases hp

theorem reply_hset {r : Redis} {info : FileInfo}
    (h : ¬(r.execute (.hset info.fileId info.serialize)).1.Clobbered) :
    (r.execute (.hset info.fileId info.serialize)).2 = .ok := by
  have hr : ¬r.Clobbered := fun hr => h (hr.execute _)
  rw [Redis.execute]
  split
  · rfl
  · rfl
  · rename_i text htext
    exact absurd ⟨text, htext⟩ hr

theorem mem_publish {b : BlobStorage} {entries : List BlobEntry} {key : String}
    (hkeys : (keysOf entries).Nodup) (hkey : key ∈ keysOf entries) (nodeId : String)
    (fileId : UInt32) (needsCreation : Bool) (byteOffset : UInt64) (info : FileInfo) :
    key ∈ (b.publish entries nodeId fileId needsCreation byteOffset info).1.map := by
  have hnodup := BlobStorage.keys_wrappersFrom entries nodeId fileId byteOffset info ▸ hkeys
  rw [← BlobStorage.keys_wrappersFrom entries nodeId fileId byteOffset info] at hkey
  obtain ⟨w, hw, rfl⟩ := List.mem_map.mp hkey
  rw [BlobStorage.publish_eq, FiniteMap.mem_iff_getElem?]
  exact ⟨_, FiniteMap.getElem?_foldl_insert_of_mem hnodup _ hw⟩

/-- The creation of a lock puts its keys into the map, or goes on to. -/
theorem KeyInv.locks_part (hs : s.KeyInv) (hruns : Runs s action t request activity next)
    (halone : s.Alone action) (part : Part s t activity s₁ p) {fileId : UInt32} {lock : FileLock}
    (hlock : s.blob.lockedFiles[fileId]? = some lock) :
    (∀ key ∈ lock.keys, key ∈ s₁.blob.map) ∨ ∃ a, (s₁.after t request next p).At lock.acquisition a ∧
      a.isRedis ∧ a.batch.map keysOf = some lock.keys := by
  have hcalm : ¬s.redis.Clobbered :=
    (hs.keys _ (.settled (part.not_pending hruns halone hs.pool.alone.fresh))).calm
  obtain ⟨-, hmem | ⟨a, hat, ha, hbatch⟩⟩ := hs.locks fileId lock hlock
  · exact .inl fun key hkey => part.mem_map (hmem key hkey)
  by_cases ht : t = lock.acquisition
  · rw [← ht] at hat ⊢
    clear ht
    cases hruns with
    | start => exact absurd (hs.pool.alone.fresh _ _ hat) (lt_irrefl _)
    | resume hcall =>
      rename_i c
      have hawait : c.await.deaf = a := Option.some.inj ((at_of_call hcall).symm.trans hat)
      obtain ⟨request, await⟩ := c
      have hexpects := hs.pool.alone.expected _ _ hcall
      dsimp only at hawait part hexpects
      subst hawait
      rw [Await.isRedis_deaf] at ha
      rw [Await.batch_deaf] at hbatch
      cases await with
      | redis k reply =>
        cases k with
        | addFile entries nodeId file info =>
          have hfile : file ∈ s.blob.filePool := by
            have hadded : info.fileId = file := hs.pool.ids.added _ _ hat
            exact hadded ▸ hs.pool.ids.saved _ _ hat info rfl
          cases part with
          | reserve hinfo => exact .inr ⟨_, at_after_waits, rfl, hbatch⟩
          | reserveNone hnone =>
            obtain ⟨info', hinfo'⟩ := FiniteMap.mem_iff_getElem?.mp hfile
            cases hinfo'.symm.trans hnone
          | broken hreply =>
            obtain ⟨r, hanswer, hredis⟩ := hs.pool.alone.answered _ _ hat _ _ rfl
            exact absurd (hanswer.symm.trans (reply_hset (hredis ▸ hcalm))) hreply
        | setSize entries nodeId file needsCreation byteOffset info =>
          cases part with
          | publish =>
            left
            rw [← Option.some.inj hbatch]
            cases hexpects with
            | setSize hkeys =>
              exact fun key hkey => mem_publish hkeys hkey nodeId file needsCreation byteOffset info
          | broken hreply =>
            obtain ⟨r, hanswer, hredis⟩ := hs.pool.alone.answered _ _ hat _ _ rfl
            exact absurd (hanswer.symm.trans (reply_hset (hredis ▸ hcalm))) hreply
        | _ => cases hbatch
      | _ => cases ha
  · rw [hruns.others_idle halone ht hat] at ha
    cases ha

theorem KeyInv.part (hs : s.KeyInv) (hruns : Runs s action t request activity next)
    (halone : s.Alone action) (part : Part s t activity s₁ p)
    (hpool : (s₁.after t request next p).PoolInv)
    (hkeys : ∀ r, (s₁.after t request next p).Flushed r →
      KeysSynced (s₁.after t request next p).blob r)
    (hlegal : (s₁.after t request next p).AcceptsLegal) : (s₁.after t request next p).KeyInv := by
  have hown : ∀ a, p = .waits a → ∀ entries ∈ a.batch, filePoolKey ∉ keysOf entries := by
    intro a hp entries hentries
    rcases part.batch a hp entries hentries with ⟨nodeId, rfl⟩ | ⟨a₀, choice, rfl, ha₀⟩
    · subst hp
      exact hlegal t entries nodeId at_after_waits
    · exact hs.accepted t _ hruns.at_resume entries (by rwa [Await.batch_deaf])
  have hold {fileId : UInt32} {lock : FileLock} (hlock : s.blob.lockedFiles[fileId]? = some lock) :=
    And.intro (hs.locks fileId lock hlock).1 (hs.locks_part hruns halone part hlock)
  constructor
  case pool => exact hpool
  case keys => exact hkeys
  case accepted =>
    refine part.forall_at (fun t' a _ => hs.accepted t' a) fun a hp => ?_
    rw [Await.batch_deaf]
    exact hown a hp
  case asked =>
    refine part.forall_at (fun t' a _ => hs.asked t' a) fun a hp => ?_
    rw [Await.asks_deaf]
    exact part.asks a hp
  case marked =>
    refine part.forall_at (fun t' a _ => hs.marked t' a) fun a hp fileId key rest items reply ha => ?_
    cases a <;> cases ha
    exact hs.marked_part hruns halone part _ hp _ _ _ _ _ rfl
  case locks =>
    intro fileId lock hlock
    rw [after_blob] at hlock ⊢
    cases part.lockMove with
    | same hlocked => exact hold (hlocked ▸ hlock)
    | abort _ hlocked => exact hold (hlocked ▸ hlock)
    | release hlock' hlocked =>
      rw [hlocked, FiniteMap.getElem?_erase] at hlock
      split_ifs at hlock
      exact hold hlock
    | take hpicks hbatch hlocked htasks hrunning hholds =>
      rw [hlocked, FiniteMap.getElem?_insert] at hlock
      split_ifs at hlock with hfile
      · cases hlock
        refine ⟨hown _ rfl _ hholds.2.2.2, .inr ⟨_, at_after_waits, ?_, ?_⟩⟩
        · rw [Await.isRedis_deaf]
          exact hholds.2.2.1
        · rw [Await.batch_deaf, hholds.2.2.2]
          rfl
      · exact hold hlock

theorem KeysSynced.init {b b' : BlobStorage} {r : Redis} {config : BlobStorageConfig}
    (h : KeysSynced b r) (hinit : BlobStorage.init config r = some b') : KeysSynced b' r where
  stored := by simp [(init_forgets hinit).1]
  readable := h.readable
  calm := h.calm

theorem KeyInv.step (hs : s.KeyInv) {a : Action} (halone : s.Alone a) {s' : Server}
    {es : List Event} (h : s.step a = some (s', es)) (hlegal : s'.AcceptsLegal) : s'.KeyInv := by
  have hpool := hs.pool.step halone h
  have hkeys : ∀ r, s'.Flushed r → KeysSynced s'.blob r := by
    refine hs.pool.alone.flushed_step hs.keys halone h ?_ ?_ ?_
    · exact fun hruns part => hs.synced_part hruns halone part
    · exact fun _ _ hkeys => ⟨hkeys.stored, hkeys.readable, hkeys.calm⟩
    · exact fun _ _ hkeys hinit => hkeys.init hinit
  cases step_of_eq h with
  | part hruns part => exact hs.part hruns halone part hpool hkeys hlegal
  | execute hcall =>
    rename_i t request k
    have hat := at_of_call hcall
    constructor
    case pool => exact hpool
    case keys => exact hkeys
    case accepted =>
      refine forall_at_execute (fun t' a _ => hs.accepted t' a) ?_
      have haccepted := hs.accepted _ _ hat
      cases k <;> exact haccepted
    case asked =>
      refine forall_at_execute (fun t' a _ => hs.asked t' a) ?_
      have hasked := hs.asked _ _ hat
      cases k <;> exact hasked
    case marked =>
      refine forall_at_execute (fun t' a _ => hs.marked t' a) ?_
      rintro fileId key rest items reply ⟨⟩
      exact hs.marked _ _ hat _ _ _ _ _ rfl
    case locks =>
      intro fileId lock hlock
      obtain ⟨hlegal, hmem | ⟨a, hat', ha, hbatch⟩⟩ := hs.locks fileId lock hlock
      · exact ⟨hlegal, .inl hmem⟩
      · refine ⟨hlegal, .inr ?_⟩
        have ht := hs.pool.alone.single _ _ _ _ hat hat' rfl ha
        subst ht
        cases Option.some.inj (hat.symm.trans hat')
        refine ⟨.redis k (some (s.redis.execute k.command).2), ?_, rfl, ?_⟩
        · rw [At, executed, ExtTreeMap.getElem?_insert_self]
          rfl
        · cases k <;> exact hbatch
  | expire =>
    constructor
    case pool => exact hpool
    case keys => exact hkeys
    case accepted => exact fun t a hat => hs.accepted t a ((at_notifyWaiters _).mp hat)
    case asked => exact fun t a hat => hs.asked t a ((at_notifyWaiters _).mp hat)
    case marked => exact fun t a hat => hs.marked t a ((at_notifyWaiters _).mp hat)
    case locks =>
      intro fileId lock hlock
      change (s.blob.lockedFiles.erase _)[fileId]? = some lock at hlock
      rw [FiniteMap.getElem?_erase] at hlock
      split_ifs at hlock
      refine (hs.locks fileId lock hlock).imp_right (Or.imp_right ?_)
      rintro ⟨a, hat, ha⟩
      exact ⟨a, (at_notifyWaiters _).mpr hat, ha⟩
  | stop => exact ⟨hpool, hkeys, hs.accepted, hs.asked, hs.marked, hs.locks⟩
  | receive => exact ⟨hpool, hkeys, hs.accepted, hs.asked, hs.marked, hs.locks⟩
  | restart hboot =>
    have hat : ∀ t a, ¬s'.At t a := fun t a => not_at_boot hboot
    refine ⟨hpool, hkeys, fun t a h => absurd h (hat t a), fun t a h => absurd h (hat t a),
      fun t a h => absurd h (hat t a), ?_⟩
    obtain ⟨b, hinit, rfl⟩ := Option.map_eq_some_iff.mp hboot
    simp [(init_forgets hinit).2.1]

theorem keyInv_boot {config : BlobStorageConfig} (h : boot config ∅ 0 = some s) : s.KeyInv := by
  have hat : ∀ t a, ¬s.At t a := fun t a => not_at_boot h
  refine ⟨poolInv_boot h, ?_, fun t a h => absurd h (hat t a), fun t a h => absurd h (hat t a),
    fun t a h => absurd h (hat t a), ?_⟩
  · intro r hr
    cases flushed_boot h hr
    obtain ⟨b, hinit, rfl⟩ := Option.map_eq_some_iff.mp h
    constructor
    case stored => simp [(init_forgets hinit).1]
    case readable => simp
    case calm => simp [Redis.Clobbered]
  · obtain ⟨b, hinit, rfl⟩ := Option.map_eq_some_iff.mp h
    simp [(init_forgets hinit).2.1]

end Parts

end Server

end NpmFollower.BlobIdxServer
