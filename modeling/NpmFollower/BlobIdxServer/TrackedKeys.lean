import NpmFollower.BlobIdxServer.FilePool
import NpmFollower.BlobIdxServer.KeySync

/-! # Keys and names while the server runs

A server that was started on an empty Redis and runs on has every key of Redis in
memory, and every file under the name of its id.
-/

namespace NpmFollower.BlobIdxServer

open Std PostgresDb Runs

/-- The name of a chunk file. -/
def blobName (fileId : UInt32) : String := (FileInfo.new fileId).fileName

/-- What a call has put into the map, or will write to Redis. -/
def Await.texts : Await → List (String × Value)
  | .redis (.markKey _ _ _ toSetInRedis) _ => toSetInRedis
  | .redis k _ => k.items
  | _ => []

@[simp] theorem Await.texts_deaf (a : Await) : a.deaf.texts = a.texts := by cases a <;> rfl

theorem Await.texts_redis (k : Continuation) (reply : Option Reply) :
    (Await.redis k reply).texts = (Await.redis k none).texts := by cases k <;> rfl

/-- The call checks keys of its batch, and has the file under its name. -/
def Await.Proper : Await → Prop
  | .redis (.checkKey entries _ key rest) _ => ∀ k ∈ key :: rest, k ∈ keysOf entries
  | .redis (.setSize _ _ fileId _ _ info) _ => info.fileName = blobName fileId
  | .redis (.setSlices offset _) _ => offset.fileName = blobName offset.fileId
  | _ => True

theorem Await.proper_deaf {a : Await} : a.deaf.Proper ↔ a.Proper := by cases a <;> rfl

theorem Await.proper_redis {k : Continuation} {reply : Option Reply} :
    (Await.redis k reply).Proper ↔ (Await.redis k none).Proper := by cases k <;> rfl

/-- Redis has answered with a text. -/
def Await.found : Await → Bool
  | .redis _ (some (.text (some _))) => true
  | _ => false

@[simp] theorem Await.found_deaf (a : Await) : a.deaf.found = a.found := by cases a <;> rfl

/-- The server is not started again. -/
def Action.KeepsRunning : Action → Prop
  | .restart _ => False
  | _ => True

namespace Server

/-- Redis has only keys that are in memory, and the files have their names. -/
structure Tracked (s : Server) : Prop where
  redis : ∀ key ≠ filePoolKey, ∀ v, s.redis[key]? = some v → key ∈ s.blob.map
  texts : ∀ t a, s.At t a → ∀ e ∈ a.texts, e.1 ∈ s.blob.map
  replies : ∀ t a, s.At t a → a.found → ∀ key ∈ a.asks, key ∈ s.blob.map
  asked : ∀ t a, s.At t a → ∀ key ∈ a.asks, key ≠ filePoolKey
  proper : ∀ t a, s.At t a → a.Proper
  named : ∀ fileId (info : FileInfo), s.blob.filePool[fileId]? = some info →
    info.fileName = blobName fileId

variable {s s₁ : Server} {t : CallId} {request : Request} {activity : Activity} {p : Progress}
  {action : Action} {next : CallId}

theorem texts_checked {b : BlobStorage} {entries : List BlobEntry} {nodeId : String}
    {keys : List String} (h : b.Checked entries nodeId keys p) :
    ∀ a, p = .waits a → a.texts = [] := by
  cases h <;> rintro _ ⟨⟩ <;> rfl

theorem texts_startLookup (b : BlobStorage) (key : String) :
    ∀ a, b.startLookup key = .waits a → a.texts = [] := by
  intro a ha
  rw [BlobStorage.startLookup] at ha
  split_ifs at ha
  split at ha <;> cases ha
  rfl

theorem texts_marked {b : BlobStorage} {fileId : UInt32} {keys : List String}
    {toSet : List (String × Value)} (h : b.Marked fileId keys toSet p)
    (hmem : ∀ e ∈ toSet, e.1 ∈ b.map) :
    ∀ a, p = .waits a → ∀ e ∈ a.texts, e.1 ∈ b.map := by
  have happend : ∀ items : List (String × Value),
      (∀ e ∈ items, ∃ l : LockWrapper, b.map[e.1]? = some l ∧ e.2 = l.marked.serialize) →
        ∀ e ∈ toSet ++ items, e.1 ∈ b.map := by
    intro items hitems e he
    rcases List.mem_append.mp he with he | he
    · exact hmem e he
    · obtain ⟨l, hl, -⟩ := hitems e he
      exact FiniteMap.mem_iff_getElem?.mpr ⟨l, hl⟩
  cases h with
  | all items hkeys hitems htexts => rintro _ ⟨⟩; exact happend items htexts
  | asks pre key rest items hsplit hpre hkey hnone hitems htexts =>
    rintro _ ⟨⟩
    exact happend items htexts
  | reserved => rintro _ ⟨⟩

/-- What a call writes to Redis is in the map. -/
theorem Part.texts_mem (h : Part s t activity s₁ p) (hof : activity.Of request)
    (hresume : ∀ a choice, activity = .resume a choice → ∀ e ∈ a.texts, e.1 ∈ s.blob.map) :
    ∀ a, p = .waits a → ∀ e ∈ a.texts, e.1 ∈ s₁.blob.map := by
  have hempty {a : Await} (h : a.texts = []) : ∀ e ∈ a.texts, e.1 ∈ s₁.blob.map := by
    simp [h]
  cases h with
  | check hc => exact fun a ha => hempty (texts_checked hc a ha)
  | checkAbsent hc => exact fun a ha => hempty (texts_checked hc a ha)
  | checkLoaded hl hc => exact fun a ha => hempty (texts_checked hc a ha)
  | lookup => exact fun a ha => hempty (texts_startLookup _ _ a ha)
  | lookupLoaded hl => exact fun a ha => hempty (texts_startLookup _ _ a ha)
  | publish needsCreation byteOffset info =>
    cases hof with
    | resume hexpects =>
      cases hexpects with
      | setSize hkeys =>
        intro a ha e he
        rw [BlobStorage.publish_eq] at ha
        cases ha
        obtain ⟨w, hw, rfl⟩ := List.mem_map.mp he
        refine mem_publish hkeys ?_ _ _ needsCreation byteOffset info
        exact (BlobStorage.keys_wrappersFrom ..) ▸ List.mem_map_of_mem hw
  | unlock hlock hnode =>
    rename_i fileId nodeId lock
    intro a ha e he
    have hmem := texts_marked (BlobStorage.markKeys_marked _ _ _) (by simp) a ha e he
    exact mem_markKeys hmem fileId lock.keys []
  | markLoaded hl =>
    intro a ha e he
    refine mem_markKeys (texts_marked (BlobStorage.markKeys_marked _ _ _) ?_ a ha e he) _ _ _
    exact fun e he => mem_insert_of_mem (hresume _ _ rfl e he)
  | _ => rintro _ ⟨⟩ <;> exact hempty rfl

theorem proper_checked {b : BlobStorage} {entries : List BlobEntry} {nodeId : String}
    {keys : List String} (h : b.Checked entries nodeId keys p)
    (hkeys : ∀ k ∈ keys, k ∈ keysOf entries) : ∀ a, p = .waits a → a.Proper := by
  cases h with
  | asks pre key rest hsplit hpre hkey hnone =>
    rintro _ ⟨⟩ k hk
    apply hkeys
    rw [hsplit]
    exact List.mem_append_right _ hk
  | _ => rintro _ ⟨⟩ <;> trivial

theorem proper_marked {b : BlobStorage} {fileId : UInt32} {keys : List String}
    {toSet : List (String × Value)} (h : b.Marked fileId keys toSet p) :
    ∀ a, p = .waits a → a.Proper := by
  cases h <;> rintro _ ⟨⟩ <;> trivial

theorem Part.proper (h : Part s t activity s₁ p)
    (hresume : ∀ a choice, activity = .resume a choice → a.Proper)
    (hnamed : ∀ fileId (info : FileInfo), s.blob.filePool[fileId]? = some info →
      info.fileName = blobName fileId) : ∀ a, p = .waits a → a.Proper := by
  cases h with
  | check hc => exact proper_checked hc fun _ hk => hk
  | checkAbsent hc =>
    exact proper_checked hc fun k hk => hresume _ _ rfl k (List.mem_cons_of_mem _ hk)
  | checkLoaded hl hc => exact proper_checked hc (hresume _ _ rfl)
  | pickFree hlock hsize hfree hinfo =>
    have hname := hnamed _ _ hinfo
    rintro _ ⟨⟩
    exact hname
  | notified hinfo =>
    have hname := hnamed _ _ hinfo
    rintro _ ⟨⟩
    exact hname
  | reserve hinfo =>
    have hname := hnamed _ _ hinfo
    rintro _ ⟨⟩
    exact hname
  | publish needsCreation byteOffset info =>
    have hname := hresume _ _ rfl
    rw [BlobStorage.publish_eq]
    rintro _ ⟨⟩
    exact hname
  | unlock hlock hnode => exact proper_marked (BlobStorage.markKeys_marked _ _ _)
  | markLoaded hl => exact proper_marked (BlobStorage.markKeys_marked _ _ _)
  | lookup =>
    intro a ha
    cases expects_startLookup _ _ a ha
    trivial
  | lookupLoaded hl =>
    intro a ha
    cases expects_startLookup _ _ a ha
    trivial
  | _ => rintro _ ⟨⟩ <;> trivial

theorem Part.named (h : Part s t activity s₁ p)
    (hnamed : ∀ fileId (info : FileInfo), s.blob.filePool[fileId]? = some info →
      info.fileName = blobName fileId) :
    ∀ fileId (info : FileInfo), s₁.blob.filePool[fileId]? = some info →
      info.fileName = blobName fileId := by
  intro fileId info hinfo
  cases h.poolMove with
  | same hpool => exact hnamed fileId info (hpool ▸ hinfo)
  | add entries nodeId hsize hpool =>
    rw [hpool, FiniteMap.getElem?_insert] at hinfo
    split_ifs at hinfo with hid
    · cases hinfo
      rw [hid]
      rfl
    · exact hnamed fileId info hinfo
  | grow entries nodeId id info₀ needsCreation hinfo₀ hpool =>
    rw [hpool, FiniteMap.getElem?_insert] at hinfo
    split_ifs at hinfo with hid
    · cases hinfo
      exact hid ▸ hnamed id info₀ hinfo₀
    · exact hnamed fileId info hinfo

theorem Tracked.step (hs : s.Tracked) (hexpected : s.Expected) {a : Action} (ha : a.KeepsRunning)
    {s' : Server} {es : List Event} (h : Step s a s' es) : s'.Tracked := by
  cases h with
  | part hruns part =>
    have hof := hruns.of hexpected
    constructor
    case redis =>
      rw [after_redis, after_blob, part.redis_eq]
      exact fun key hkey v hv => part.mem_map (hs.redis key hkey v hv)
    case texts =>
      rw [after_blob]
      refine part.forall_at (fun t' a _ hat e he => part.mem_map (hs.texts t' a hat e he))
        fun a hp e he => ?_
      rw [Await.texts_deaf] at he
      refine part.texts_mem hof ?_ a hp e he
      rintro a₀ choice rfl e₀ he₀
      exact hs.texts _ _ hruns.at_resume e₀ (by rwa [Await.texts_deaf])
    case replies =>
      rw [after_blob]
      refine part.forall_at (fun t' a _ hat hfound key hkey =>
        part.mem_map (hs.replies t' a hat hfound key hkey)) fun a hp hfound => ?_
      rw [Await.found_deaf] at hfound
      cases a with
      | redis k reply =>
        cases part.unsent _ _ hp
        cases hfound
      | _ => cases hfound
    case asked =>
      refine part.forall_at (fun t' a _ => hs.asked t' a) fun a hp => ?_
      rw [Await.asks_deaf]
      exact part.asks a hp
    case proper =>
      refine part.forall_at (fun t' a _ => hs.proper t' a) fun a hp => ?_
      rw [Await.proper_deaf]
      refine part.proper ?_ hs.named a hp
      rintro a₀ choice rfl
      exact Await.proper_deaf.mp (hs.proper _ _ hruns.at_resume)
    case named =>
      rw [after_blob]
      exact part.named hs.named
  | execute hcall =>
    rename_i t request k
    have hat := at_of_call hcall
    constructor
    case redis =>
      intro key hkey v hv
      change (s.redis.execute k.command).1[key]? = some v at hv
      rw [Redis.getElem?_execute k hkey] at hv
      rcases Redis.getElem?_setMultiple k.items key with ⟨heq, -⟩ | ⟨text, hmem, -⟩
      · exact hs.redis key hkey v (heq ▸ hv)
      · refine hs.texts t _ hat (key, text) ?_
        cases k <;> first | exact hmem | cases hmem
    case texts =>
      refine forall_at_execute (fun t' a _ => hs.texts t' a) ?_
      rw [Await.texts_redis]
      exact hs.texts t _ hat
    case replies =>
      refine forall_at_execute (fun t' a _ => hs.replies t' a) fun hfound key hkey => ?_
      have hasks : key ∈ (Await.redis k none).asks := by cases k <;> exact hkey
      have hv : ∃ v, s.redis[key]? = some v := by
        have hcommand : k.command = .get key := by cases k <;> cases hasks <;> rfl
        rw [hcommand, Redis.execute] at hfound
        cases hv : s.redis[key]? with
        | none =>
          rw [hv] at hfound
          cases hfound
        | some v => exact ⟨v, rfl⟩
      obtain ⟨v, hv⟩ := hv
      exact hs.redis key (hs.asked t _ hat key hasks) v hv
    case asked =>
      refine forall_at_execute (fun t' a _ => hs.asked t' a) ?_
      have hasked := hs.asked t _ hat
      cases k <;> exact hasked
    case proper =>
      refine forall_at_execute (fun t' a _ => hs.proper t' a) ?_
      exact Await.proper_redis.mpr (hs.proper t _ hat)
    case named => exact hs.named
  | expire =>
    exact ⟨hs.redis, fun t a hat => hs.texts t a ((at_notifyWaiters _).mp hat),
      fun t a hat => hs.replies t a ((at_notifyWaiters _).mp hat),
      fun t a hat => hs.asked t a ((at_notifyWaiters _).mp hat),
      fun t a hat => hs.proper t a ((at_notifyWaiters _).mp hat), hs.named⟩
  | stop => exact ⟨hs.redis, hs.texts, hs.replies, hs.asked, hs.proper, hs.named⟩
  | receive => exact ⟨hs.redis, hs.texts, hs.replies, hs.asked, hs.proper, hs.named⟩
  | restart => cases ha

theorem tracked_boot {config : BlobStorageConfig} {n : CallId} (h : boot config ∅ n = some s) :
    s.Tracked := by
  have hat : ∀ t a, ¬s.At t a := fun t a => not_at_boot h
  obtain ⟨b, hinit, rfl⟩ := Option.map_eq_some_iff.mp h
  have hreadable : (∅ : Redis).FilesReadable := by simp [Redis.FilesReadable]
  refine ⟨by simp, fun t a h => absurd h (hat t a), fun t a h => absurd h (hat t a),
    fun t a h => absurd h (hat t a), fun t a h => absurd h (hat t a), fun fileId info hinfo => ?_⟩
  change b.filePool[fileId]? = some info at hinfo
  rw [init_filePool hreadable hinit] at hinfo
  simp [Redis.storedFile] at hinfo

end Server

end NpmFollower.BlobIdxServer
