import NpmFollower.BlobIdxClient.StoreIntoBlob
import NpmFollower.BlobIdxServer.Errors
import NpmFollower.BlobIdxServer.TrackedKeys

/-! # The sessions as writers

The sessions of the clients are writers on shared files: the server grants them
their files and ranges, its map is the index, and an unlock makes the entries of a
session valid. The parts of a creation are steps of its writer.
-/

namespace NpmFollower.BlobIdxClient

open Std BlobIdxServer Server Runs SharedFiles

def Session.items (x : Session) : List (String × List UInt8) :=
  x.blobs.map fun b => (b.key, b.bytes)

/-- Where the call waits, notified or not. -/
def awaitOf (s : Server) (t : CallId) : Option Await := (s.calls[t]?).map fun c => c.await.deaf

/-- The stage of a session as a writer, from its state and where its `create_and_lock` waits. -/
def SessionState.stage (a : Option Await) : SessionState → Stage UInt32 UInt8
  | creating =>
    match a with
    | some (.redis (.addFile _ _ fileId _) _) => .holding fileId
    | some (.redis (.setSize _ _ fileId _ byteOffset _) _) => .reserved fileId byteOffset.toNat
    | some (.redis (.setSlices blob _) _) => .listed blob.fileId blob.byteOffset.toNat
    | _ => .waiting
  | locked blob => .listed blob.fileId blob.byteOffset.toNat
  | writing blob position rest => .writing blob.fileId blob.byteOffset.toNat position rest.flatten
  | unlocking _ _ => .committed
  | stored _ => .committed
  | failed => .ended

def SessionState.isStored : SessionState → Bool
  | stored _ => true
  | _ => false

/-- The range that the session has been granted, and still uses. -/
def SessionState.granted : SessionState → Option BlobOffset
  | locked blob => some blob
  | writing blob _ _ => some blob
  | _ => none

/-- The session has been granted a range. -/
def SessionState.accepted : SessionState → Bool
  | creating => false
  | failed => false
  | _ => true

/-- The entry names its file, and the reserved key is never written. -/
def EntryOk (key : String) (l : LockWrapper) : Prop :=
  l.slice.fileName = blobName l.slice.fileId ∧ (l.written = true → key ≠ filePoolKey)

/-- The call asks Redis for a key that has an entry already. -/
def Await.rereads : Await → Bool
  | .redis (.markKey ..) _ => true
  | .redis (.lookup _) _ => true
  | _ => false

/-- The place of a slice. -/
def placeOf (slice : BlobStorageSlice) : Place UInt32 :=
  ⟨slice.fileId, slice.byteOffset.toNat, slice.numBytes.toNat⟩

namespace Store

/-- The sessions as writers on the chunk files. -/
def shelf (w : Store) : Shelf CallId String UInt32 UInt8 where
  size := fun fileId => (w.server.blob.filePool[fileId]?).map fun info => info.size.toNat
  bytes := fun fileId => w.files[blobName fileId]?
  holder := fun fileId => (w.server.blob.lockedFiles[fileId]?).map fun lock => lock.acquisition
  index := fun key => (w.server.blob.map[key]?).map fun l => (placeOf l.slice, l.written)
  writer := fun (session : CallId) => (w.sessions[session]?).map fun x =>
    ⟨x.items, x.state.stage (awaitOf w.server session)⟩

/-- The sessions have distinct keys and overlap on different files, no lock expires, and only stored
keys are looked up. -/
def Apart (w : Store) : Move → Prop
  | .store blobs _ =>
    ∀ e ∈ w.sessions.toList, ∀ b ∈ blobs, b.key ∉ e.2.blobs.map fun b => b.key
  | .lookup key =>
    ∃ e ∈ w.sessions.toList, e.2.state.isStored ∧ key ∈ e.2.blobs.map fun b => b.key
  | .serve (.resume t choice) =>
    ∀ c ∈ w.server.calls[t]?, ∀ fileId ∈ w.server.picks choice c.await,
      w.server.blob.lockedFiles[fileId]? = none
  | .serve (.tick cleaner) =>
    ∀ c ∈ w.server.cleaners[cleaner]?, w.server.blob.lockedFiles[c.fileId]? = none
  | .serve (.restart _) => False
  | _ => True

instance (w : Store) (m : Move) : Decidable (w.Apart m) :=
  match m with
  | .store blobs _ => inferInstanceAs (Decidable (∀ e ∈ w.sessions.toList, ∀ b ∈ blobs,
      b.key ∉ e.2.blobs.map fun b => b.key))
  | .lookup key => inferInstanceAs (Decidable (∃ e ∈ w.sessions.toList,
      e.2.state.isStored ∧ key ∈ e.2.blobs.map fun b => b.key))
  | .serve (.resume t choice) =>
    have (c : Call) : Decidable (∀ fileId ∈ w.server.picks choice c.await,
        w.server.blob.lockedFiles[fileId]? = none) := Option.decidableForallMem _
    inferInstanceAs (Decidable (∀ c ∈ w.server.calls[t]?, ∀ fileId ∈ w.server.picks choice c.await,
      w.server.blob.lockedFiles[fileId]? = none))
  | .serve (.tick cleaner) => inferInstanceAs (Decidable (∀ c ∈ w.server.cleaners[cleaner]?,
      w.server.blob.lockedFiles[c.fileId]? = none))
  | .serve (.restart _) => isFalse id
  | .serve (.call _) => isTrue trivial
  | .serve (.execute _) => isTrue trivial
  | .serve (.receive _) => isTrue trivial
  | .openFile _ => isTrue trivial
  | .write _ _ => isTrue trivial
  | .unlock _ => isTrue trivial
  | .keepAlive _ => isTrue trivial

/-- The sessions that wait are those whose calls run, with these requests. -/
structure Matched (sessions : DashMap CallId Session) (requests : CallId → Option Request)
    (next : CallId) : Prop where
  known : ∀ (session : CallId) (x : Session), sessions[session]? = some x → session < next
  creating : ∀ (session : CallId) (x : Session), sessions[session]? = some x →
    x.state = .creating →
      requests session = some (.createAndLock (blobEntries x.blobs) x.nodeId)
  creators : ∀ t entries nodeId, requests t = some (.createAndLock entries nodeId) →
    ∃ x : Session, sessions[t]? = some x ∧ x.state = .creating
  unlocking : ∀ (session : CallId) (x : Session), sessions[session]? = some x → ∀ blob call,
    x.state = .unlocking blob call → call < next ∧
      ∀ entries nodeId, requests call ≠ some (.createAndLock entries nodeId)

/-- What holds in a run of sessions besides the writers, while a call runs as well. -/
structure Inv (w : Store) (requests : CallId → Option Request) (next : CallId) : Prop where
  ids : w.server.IdsInv
  expected : w.server.Expected
  tracked : w.server.Tracked
  matched : Matched w.sessions requests next
  locks : ∀ (fileId : UInt32) (lock : FileLock), w.server.blob.lockedFiles[fileId]? = some lock →
    ∃ x : Session, w.sessions[lock.acquisition]? = some x ∧ lock.nodeId = x.nodeId ∧
      lock.keys = keysOf (blobEntries x.blobs)
  granted : ∀ (session : CallId) (x : Session), w.sessions[session]? = some x → ∀ blob,
    x.state.granted = some blob → blob.fileName = blobName blob.fileId
  distinct : ∀ (session : CallId) (x : Session), w.sessions[session]? = some x →
    x.state.accepted → (keysOf (blobEntries x.blobs)).Nodup
  slices : ∀ (key : String) (l : LockWrapper), w.server.blob.map[key]? = some l → EntryOk key l
  noRereads : ∀ t a, w.server.At t a → Await.rereads a = false

/-- What holds in a run of sessions. -/
structure Sound (w : Store) : Prop where
  inv : w.Inv w.server.requestOf w.server.nextCall
  shelf : w.shelf.Inv maxFileSize

/-- The requests of the calls in flight, and of the one that runs. -/
def during (s : Server) (t : CallId) (request : Request) (t' : CallId) : Option Request :=
  if t = t' then some request else s.requestOf t'

variable {w w' : Store}

section Hear

variable {s₁ : Server} {es : List Event} {session : CallId}

theorem getElem?_hear : (w.hear s₁ es).sessions[session]? = (w.sessions[session]?).map fun x =>
    { x with state := es.foldl (fun state e => state.receive session e) x.state } :=
  ExtTreeMap.getElem?_map ..

theorem receive_eq {state : SessionState} {e : Event}
    (hcreating : state = .creating → e.call ≠ session)
    (hunlocking : ∀ blob call, state = .unlocking blob call → e.call ≠ call) :
    state.receive session e = state := by
  cases state with
  | creating => exact if_neg (hcreating rfl)
  | unlocking blob call => exact if_neg (hunlocking blob call rfl)
  | _ => rfl

variable {s : Server} {t : CallId} {request : Request} {activity : Activity} {p : Progress}
  {action : Action} {next : CallId}

theorem awaitOf_after (h : Part s t activity s₁ p) (t' : CallId) :
    awaitOf (s₁.after t request next p) t' =
      if t = t' then match p with
        | .waits a => some a.deaf
        | .returns _ => none
      else awaitOf s t' := by
  ext a
  change (s₁.after t request next p).At t' a ↔ _
  rw [at_after]
  split_ifs with ht
  · cases p <;> simp
  · exact h.at_iff

/-- The writer that a creation is, after a part of it. -/
def stageAfter : Progress → Stage UInt32 UInt8
  | .waits a => SessionState.stage (some a.deaf) .creating
  | .returns (.offset blob) => .listed blob.fileId blob.byteOffset.toNat
  | .returns _ => .ended

/-- What a part of a creation does to the writers. -/
theorem writer_of_creation (h : Part w.server t activity s₁ p) {x : Session}
    (hx : w.sessions[t]? = some x) (hcreating : x.state = .creating)
    (hunlocking : ∀ (session : CallId) (x : Session), w.sessions[session]? = some x →
      ∀ blob call, x.state = .unlocking blob call → t ≠ call) (session : CallId) :
    (w.hear (s₁.after t request next p)
      (({ s₁ with nextCall := next } : Server).settle t request p).2).shelf.writer session =
        if t = session then some ⟨x.items, stageAfter p⟩ else w.shelf.writer session := by
  dsimp only [shelf]
  rw [getElem?_hear, hear, awaitOf_after h]
  by_cases ht : t = session
  · subst ht
    rw [if_pos rfl, if_pos rfl, hx, Option.map_some, Option.map_some]
    cases p with
    | waits a =>
      dsimp only [settle, List.foldl_nil]
      rw [hcreating]
      rfl
    | returns r =>
      dsimp only [settle, List.foldl_cons, List.foldl_nil]
      rw [hcreating]
      cases r <;> simp [SessionState.receive, SessionState.stage, stageAfter, Session.items]
  · rw [if_neg ht, if_neg ht]
    cases hx' : w.sessions[session]? with
    | none => rfl
    | some x' =>
      dsimp only [Option.map_some]
      have hstate : (({ s₁ with nextCall := next } : Server).settle t request p).2.foldl
          (fun state e => state.receive session e) x'.state = x'.state := by
        cases p with
        | waits a => rfl
        | returns r => exact receive_eq (fun _ => ht) (hunlocking session x' hx')
      rw [hstate]

theorem creating_of_receive {state : SessionState} {e : Event}
    (h : state.receive session e = .creating) : state = .creating ∧ e.call ≠ session := by
  cases state with
  | creating =>
    refine ⟨rfl, fun heq => ?_⟩
    rw [SessionState.receive, if_pos heq] at h
    split at h <;> cases h
  | unlocking blob call =>
    rw [SessionState.receive] at h
    split_ifs at h
    split at h <;> cases h
  | _ => cases h

theorem unlocking_of_receive {state : SessionState} {e : Event} {blob : BlobOffset} {call : CallId}
    (h : state.receive session e = .unlocking blob call) : state = .unlocking blob call := by
  cases state with
  | creating =>
    rw [SessionState.receive] at h
    split_ifs at h
    split at h <;> cases h
  | unlocking blob' call' =>
    rw [SessionState.receive] at h
    split_ifs at h
    · split at h <;> cases h
    · exact h
  | _ => cases h

theorem granted_of_receive {state : SessionState} {e : Event} {blob : BlobOffset}
    (h : (state.receive session e).granted = some blob) :
    state.granted = some blob ∨ e.response = .offset blob := by
  cases state with
  | creating =>
    rw [SessionState.receive] at h
    split_ifs at h
    · split at h
      · rename_i blob' heq
        cases h
        exact .inr heq
      · cases h
    · cases h
  | unlocking blob' call' =>
    rw [SessionState.receive] at h
    split_ifs at h
    · split at h <;> cases h
    · cases h
  | _ => exact .inl h

theorem accepted_of_receive {state : SessionState} {e : Event}
    (h : (state.receive session e).accepted) :
    state.accepted ∨ e.call = session ∧ ∃ blob, e.response = .offset blob := by
  cases state with
  | creating =>
    rw [SessionState.receive] at h
    split_ifs at h with hcall
    · split at h
      · rename_i blob heq
        exact .inr ⟨hcall, blob, heq⟩
      · cases h
    · cases h
  | failed => cases h
  | _ => exact .inl rfl

/-- A session keeps its blobs and its node. -/
theorem exists_hear {x : Session} (hx : w.sessions[session]? = some x) :
    ∃ x' : Session, (w.hear s₁ es).sessions[session]? = some x' ∧ x'.blobs = x.blobs ∧
      x'.nodeId = x.nodeId := by
  rw [getElem?_hear, hx]
  exact ⟨_, rfl, rfl, rfl⟩

theorem Matched.settle (hw : Matched w.sessions (during w.server t request) next)
    (h : Part w.server t activity s₁ p) :
    Matched (w.hear (s₁.after t request next p)
      (({ s₁ with nextCall := next } : Server).settle t request p).2).sessions
        (s₁.after t request next p).requestOf next := by
  cases p with
  | waits a =>
    have hsessions : (w.hear (s₁.after t request next (.waits a)) []).sessions = w.sessions := by
      apply ExtTreeMap.ext_getElem?
      intro session
      rw [getElem?_hear]
      simp
    have hrequests : (s₁.after t request next (.waits a)).requestOf = during w.server t request := by
      funext t'
      rw [requestOf_after h, during]
    change Matched (w.hear (s₁.after t request next (.waits a)) []).sessions _ next
    rwa [hsessions, hrequests]
  | returns r =>
    have hrequests (t' : CallId) : (s₁.after t request next (.returns r)).requestOf t' =
        if t = t' then none else w.server.requestOf t' := requestOf_after h t'
    have hold {session : CallId} {x' : Session} (hx' : (w.hear (s₁.after t request next (.returns r))
        [⟨t, request, r⟩]).sessions[session]? = some x') :
        ∃ x : Session, w.sessions[session]? = some x ∧
          x' = { x with state := x.state.receive session ⟨t, request, r⟩ } := by
      rw [getElem?_hear] at hx'
      obtain ⟨x, hx, rfl⟩ := Option.map_eq_some_iff.mp hx'
      exact ⟨x, hx, rfl⟩
    change Matched (w.hear (s₁.after t request next (.returns r)) [⟨t, request, r⟩]).sessions _ next
    constructor
    case known =>
      intro session x' hx'
      obtain ⟨x, hx, -⟩ := hold hx'
      exact hw.known session x hx
    case creating =>
      intro session x' hx' hcreating
      obtain ⟨x, hx, rfl⟩ := hold hx'
      obtain ⟨hstate, hne⟩ := creating_of_receive hcreating
      have hrequest := hw.creating session x hx hstate
      rw [during, if_neg hne] at hrequest
      rw [hrequests, if_neg hne]
      exact hrequest
    case creators =>
      intro t' entries nodeId hrequest
      rw [hrequests] at hrequest
      split_ifs at hrequest with ht
      obtain ⟨x, hx, hstate⟩ := hw.creators t' entries nodeId (by rw [during, if_neg ht, hrequest])
      rw [getElem?_hear, hx]
      refine ⟨_, rfl, ?_⟩
      dsimp only [List.foldl_cons, List.foldl_nil]
      rw [hstate]
      exact if_neg ht
    case unlocking =>
      intro session x' hx' blob call hstate
      obtain ⟨x, hx, rfl⟩ := hold hx'
      obtain ⟨hlt, hrequest⟩ := hw.unlocking session x hx blob call (unlocking_of_receive hstate)
      refine ⟨hlt, fun entries nodeId heq => hrequest entries nodeId ?_⟩
      rw [hrequests] at heq
      split_ifs at heq with ht
      rw [during, if_neg ht, heq]

/-- What holds after a part of a call. -/
theorem Inv.settle (hw : w.Inv (during w.server t request) next)
    (hids : (s₁.after t request next p).IdsInv)
    (hexpected : (s₁.after t request next p).Expected)
    (htracked : (s₁.after t request next p).Tracked) (h : Part w.server t activity s₁ p)
    (hlocks : ∀ (fileId : UInt32) (lock : FileLock), s₁.blob.lockedFiles[fileId]? = some lock →
      ∃ x : Session, w.sessions[lock.acquisition]? = some x ∧ lock.nodeId = x.nodeId ∧
        lock.keys = keysOf (blobEntries x.blobs))
    (hoffset : ∀ blob, p = .returns (.offset blob) → blob.fileName = blobName blob.fileId ∧
      ∀ x : Session, w.sessions[t]? = some x → (keysOf (blobEntries x.blobs)).Nodup)
    (hslices : ∀ (key : String) (l : LockWrapper), s₁.blob.map[key]? = some l → EntryOk key l)
    (hwaits : ∀ a, p = .waits a → Await.rereads a = false) :
    (w.hear (s₁.after t request next p)
      (({ s₁ with nextCall := next } : Server).settle t request p).2).Inv
        (s₁.after t request next p).requestOf (s₁.after t request next p).nextCall where
  ids := hids
  expected := hexpected
  tracked := htracked
  matched := by
    rw [after_nextCall]
    exact hw.matched.settle h
  locks := by
    intro fileId lock hlock
    change (s₁.after t request next p).blob.lockedFiles[fileId]? = some lock at hlock
    rw [after_blob] at hlock
    obtain ⟨x, hx, hnode, hkeys⟩ := hlocks fileId lock hlock
    obtain ⟨x', hx', hblobs, hnodeId⟩ := exists_hear hx
    exact ⟨x', hx', hnode.trans hnodeId.symm, by rw [hblobs]; exact hkeys⟩
  granted := by
    intro session x' hx' blob hblob
    rw [getElem?_hear] at hx'
    obtain ⟨x, hx, rfl⟩ := Option.map_eq_some_iff.mp hx'
    cases p with
    | waits a => exact hw.granted session x hx blob hblob
    | returns r =>
      rcases granted_of_receive hblob with hold | hresponse
      · exact hw.granted session x hx blob hold
      · exact (hoffset blob (congrArg Progress.returns hresponse)).1
  distinct := by
    intro session x' hx' haccepted
    rw [getElem?_hear] at hx'
    obtain ⟨x, hx, rfl⟩ := Option.map_eq_some_iff.mp hx'
    cases p with
    | waits a => exact hw.distinct session x hx haccepted
    | returns r =>
      rcases accepted_of_receive haccepted with hold | ⟨hcall, blob, hresponse⟩
      · exact hw.distinct session x hx hold
      · refine (hoffset blob (congrArg Progress.returns hresponse)).2 x ?_
        rw [show t = session from hcall, hx]
  slices := by
    intro key l hl
    change (s₁.after t request next p).blob.map[key]? = some l at hl
    rw [after_blob] at hl
    exact hslices key l hl
  noRereads := by
    apply h.forall_at (fun t' a _ => hw.noRereads t' a)
    intro a ha
    have hrereads := hwaits a ha
    cases a <;> exact hrereads

end Hear

section Creation

variable {s₁ : Server} {t : CallId} {x : Session} {p : Progress} {stage : Stage UInt32 UInt8}
  {activity : Activity} {request : Request} {next : CallId}

/-- The writers as they are, on the files, locks and entries of a server. -/
def base (w : Store) (s₁ : Server) : Shelf CallId String UInt32 UInt8 :=
  { (⟨s₁, w.files, w.sessions⟩ : Store).shelf with writer := w.shelf.writer }

theorem base_of_eq (hpool : s₁.blob.filePool = w.server.blob.filePool)
    (hlocked : s₁.blob.lockedFiles = w.server.blob.lockedFiles)
    (hmap : s₁.blob.map = w.server.blob.map) : w.base s₁ = w.shelf := by
  simp only [base, shelf, hpool, hlocked, hmap]

theorem shelf_of_creation (h : Part w.server t activity s₁ p) (hx : w.sessions[t]? = some x)
    (hcreating : x.state = .creating)
    (hunlocking : ∀ (session : CallId) (x : Session), w.sessions[session]? = some x →
      ∀ blob call, x.state = .unlocking blob call → t ≠ call) :
    (w.hear (s₁.after t request next p)
      (({ s₁ with nextCall := next } : Server).settle t request p).2).shelf =
        (w.base s₁).setWriter t ⟨x.items, stageAfter p⟩ := by
  apply Shelf.ext
  case writer =>
    funext session
    exact writer_of_creation h hx hcreating hunlocking session
  all_goals
    simp only [shelf, hear, after_blob]
    rfl

/-- What a part of a creation does to the files, and what it leaves to do. -/
structure CreationEffect (w : Store) (t : CallId) (x : Session) (s₁ : Server) (p : Progress) :
    Prop where
  steps : Shelf.Steps maxFileSize w.shelf ((w.base s₁).setWriter t ⟨x.items, stageAfter p⟩)
  locks : ∀ (fileId : UInt32) (lock : FileLock), s₁.blob.lockedFiles[fileId]? = some lock →
    w.server.blob.lockedFiles[fileId]? = some lock ∨
      lock = ⟨x.nodeId, keysOf (blobEntries x.blobs), t⟩
  slices : ∀ (key : String) (l : LockWrapper), s₁.blob.map[key]? = some l →
    w.server.blob.map[key]? = some l ∨ EntryOk key l
  offset : ∀ blob, p = .returns (.offset blob) → blob.fileName = blobName blob.fileId ∧
    (keysOf (blobEntries x.blobs)).Nodup
  waits : ∀ a, p = .waits a → Await.rereads a = false

/-- The creation stays where it is, or gives up. -/
theorem effect_of_same (hpool : s₁.blob.filePool = w.server.blob.filePool)
    (hlocked : s₁.blob.lockedFiles = w.server.blob.lockedFiles)
    (hmap : s₁.blob.map = w.server.blob.map) (hwriter : w.shelf.writer t = some ⟨x.items, stage⟩)
    (hstage : stageAfter p = stage ∨ stageAfter p = .ended)
    (hoffset : ∀ blob, p = .returns (.offset blob) → blob.fileName = blobName blob.fileId ∧
      (keysOf (blobEntries x.blobs)).Nodup)
    (hwaits : ∀ a, p = .waits a → Await.rereads a = false) : CreationEffect w t x s₁ p where
  steps := by
    rw [base_of_eq hpool hlocked hmap]
    rcases hstage with hstage | hstage
    · rw [hstage, Shelf.setWriter_self hwriter]
      exact .refl
    · rw [hstage]
      exact .single (Shelf.Step.giveUp hwriter)
  locks := fun fileId lock hlock => .inl (hlocked ▸ hlock)
  slices := fun key l hl => .inl (hmap ▸ hl)
  offset := hoffset
  waits := hwaits

theorem effect_of_checked {b : BlobStorage} {entries : List BlobEntry} {nodeId : String}
    {keys : List String} (hwriter : w.shelf.writer t = some ⟨x.items, .waiting⟩)
    (h : b.Checked entries nodeId keys p) : CreationEffect w t x w.server p := by
  apply effect_of_same rfl rfl rfl hwriter
  · cases h
    · exact .inl rfl
    · exact .inr rfl
    · exact .inr rfl
    · exact .inl rfl
  · rintro blob rfl
    cases h
  · rintro a rfl
    cases h <;> rfl

theorem effect_of_panic (hpool : s₁.blob.filePool = w.server.blob.filePool)
    (hlocked : s₁.blob.lockedFiles = w.server.blob.lockedFiles)
    (hmap : s₁.blob.map = w.server.blob.map) (hwriter : w.shelf.writer t = some ⟨x.items, stage⟩) :
    CreationEffect w t x s₁ (.returns .panicked) := by
  apply effect_of_same hpool hlocked hmap hwriter (.inr rfl)
  · rintro _ ⟨⟩
  · rintro _ ⟨⟩

section Range

theorem toNat_length (bytes : List UInt8) (h : bytes.length ≤ maxFileSize) :
    (UInt64.ofNat bytes.length).toNat = bytes.length := by
  rw [maxFileSize] at h
  rw [UInt64.toNat_ofNat']
  omega

theorem toNat_add_length (n : UInt64) (bytes : List UInt8)
    (h : n.toNat + bytes.length ≤ maxFileSize) :
    (n + UInt64.ofNat bytes.length).toNat = n.toNat + bytes.length := by
  rw [UInt64.toNat_add, toNat_length bytes (by omega)]
  rw [maxFileSize] at h
  omega

theorem contents_items_cons (b : Blob) (blobs : List Blob) :
    (contents ((b :: blobs).map fun b => (b.key, b.bytes))).length =
      b.bytes.length + (contents (blobs.map fun b => (b.key, b.bytes))).length := by
  simp [contents]

theorem toNat_grown (blobs : List Blob) (n : UInt64)
    (h : n.toNat + (contents (blobs.map fun b => (b.key, b.bytes))).length ≤ maxFileSize) :
    ((blobEntries blobs).foldl (fun size e => size + e.numBytes) n).toNat =
      n.toNat + (contents (blobs.map fun b => (b.key, b.bytes))).length := by
  induction blobs generalizing n with
  | nil => rfl
  | cons b blobs ih =>
    rw [contents_items_cons] at h ⊢
    have hn := toNat_add_length n b.bytes (by omega)
    change ((blobEntries blobs).foldl _ (n + UInt64.ofNat b.bytes.length)).toNat = _
    rw [ih (n + UInt64.ofNat b.bytes.length) (by omega), hn]
    omega

theorem places_slicesFrom (fileId : UInt32) (fileName : String) (blobs : List Blob) (n : UInt64)
    (h : n.toNat + (contents (blobs.map fun b => (b.key, b.bytes))).length ≤ maxFileSize) :
    (slicesFrom fileId fileName n (blobEntries blobs)).map (fun e => (e.1, placeOf e.2)) =
      placesFrom fileId n.toNat (blobs.map fun b => (b.key, b.bytes)) := by
  induction blobs generalizing n with
  | nil => rfl
  | cons b blobs ih =>
    rw [contents_items_cons] at h
    have hn := toNat_add_length n b.bytes (by omega)
    have hlength := toNat_length b.bytes (by omega)
    change (b.key, placeOf ⟨fileId, fileName, n, UInt64.ofNat b.bytes.length⟩) ::
      (slicesFrom fileId fileName (n + UInt64.ofNat b.bytes.length) (blobEntries blobs)).map _ = _
    rw [ih _ (by omega), hn, List.map_cons, placesFrom, placeOf]
    dsimp only
    rw [hlength]

end Range

section Locks

variable {fileId : UInt32} {info info' : FileInfo}

theorem base_of_insert (hpool : s₁.blob.filePool = w.server.blob.filePool.insert fileId info')
    (hlocked : s₁.blob.lockedFiles = w.server.blob.lockedFiles)
    (hmap : s₁.blob.map = w.server.blob.map) :
    w.base s₁ = w.shelf.setSize fileId info'.size.toNat := by
  apply Shelf.ext
  case size =>
    funext f
    simp only [base, shelf, hpool, FiniteMap.getElem?_insert, Shelf.setSize]
    split_ifs <;> rfl
  all_goals simp only [base, shelf, hlocked, hmap, Shelf.setSize]

theorem base_of_take (hpool : s₁.blob.filePool = w.server.blob.filePool.insert fileId info')
    (hlocked : s₁.blob.lockedFiles = w.server.blob.lockedFiles.insert fileId
      ⟨x.nodeId, keysOf (blobEntries x.blobs), t⟩)
    (hmap : s₁.blob.map = w.server.blob.map) :
    w.base s₁ = (w.shelf.setSize fileId info'.size.toNat).setHolder fileId (some t) := by
  apply Shelf.ext
  case size =>
    funext f
    simp only [base, shelf, hpool, FiniteMap.getElem?_insert, Shelf.setSize, Shelf.setHolder]
    split_ifs <;> rfl
  case holder =>
    funext f
    simp only [base, shelf, hlocked, FiniteMap.getElem?_insert, Shelf.setSize, Shelf.setHolder]
    split_ifs <;> rfl
  all_goals simp only [base, shelf, hmap, Shelf.setSize, Shelf.setHolder]

theorem locks_of_take (hlocked : s₁.blob.lockedFiles = w.server.blob.lockedFiles.insert fileId
    ⟨x.nodeId, keysOf (blobEntries x.blobs), t⟩) (fileId' : UInt32) (lock : FileLock)
    (hlock : s₁.blob.lockedFiles[fileId']? = some lock) :
    w.server.blob.lockedFiles[fileId']? = some lock ∨
      lock = ⟨x.nodeId, keysOf (blobEntries x.blobs), t⟩ := by
  rw [hlocked, FiniteMap.getElem?_insert] at hlock
  split_ifs at hlock
  · exact .inr (Option.some.inj hlock).symm
  · exact .inl hlock

theorem holder_eq_none (hfree : w.server.blob.lockedFiles[fileId]? = none) :
    w.shelf.holder fileId = none := by
  rw [shelf]
  dsimp only
  rw [hfree, Option.map_none]

theorem size_eq_some (hinfo : w.server.blob.filePool[fileId]? = some info) :
    w.shelf.size fileId = some info.size.toNat := by
  rw [shelf]
  dsimp only
  rw [hinfo, Option.map_some]

/-- A new file is locked. -/
theorem effect_of_pickNew {info' : FileInfo}
    (hpool : s₁.blob.filePool = w.server.blob.filePool.insert fileId (.new fileId))
    (hlocked : s₁.blob.lockedFiles = w.server.blob.lockedFiles.insert fileId
      ⟨x.nodeId, keysOf (blobEntries x.blobs), t⟩)
    (hmap : s₁.blob.map = w.server.blob.map)
    (hwriter : w.shelf.writer t = some ⟨x.items, .waiting⟩)
    (hfree : w.server.blob.lockedFiles[fileId]? = none)
    (hnew : w.server.blob.filePool[fileId]? = none) :
    CreationEffect w t x s₁
      (.waits (.redis (.addFile (blobEntries x.blobs) x.nodeId fileId info') none)) where
  steps := by
    have hsize : (w.shelf.size fileId).getD 0 = (FileInfo.new fileId).size.toNat := by
      rw [shelf]
      dsimp only
      rw [hnew]
      rfl
    have htake : w.shelf.Step maxFileSize _ :=
      Shelf.Step.take fileId hwriter (holder_eq_none hfree)
    rw [hsize] at htake
    rw [base_of_take hpool hlocked hmap]
    exact .single htake
  locks := locks_of_take hlocked
  slices := fun key l hl => .inl (hmap ▸ hl)
  offset := by rintro _ ⟨⟩
  waits := by rintro _ ⟨⟩; rfl

/-- The range of the creation is reserved in a file that it holds. -/
theorem reserve_step (s : Shelf CallId String UInt32 UInt8) {n : UInt64}
    (hwriter : s.writer t = some ⟨x.items, .holding fileId⟩)
    (hsize : s.size fileId = some info.size.toNat) (hn : n = info.size) :
    s.Step maxFileSize ((s.setSize fileId (info.grow (blobEntries x.blobs)).size.toNat).setWriter t
      ⟨x.items, .reserved fileId n.toNat⟩) := by
  subst hn
  exact Shelf.Step.reserve _ hwriter hsize (toNat_grown x.blobs info.size)

/-- A file of the pool is locked, and the range is reserved. -/
theorem effect_of_pickFree {needsCreation : Bool} {info'' : FileInfo}
    (hpool : s₁.blob.filePool =
      w.server.blob.filePool.insert fileId (info.grow (blobEntries x.blobs)))
    (hlocked : s₁.blob.lockedFiles = w.server.blob.lockedFiles.insert fileId
      ⟨x.nodeId, keysOf (blobEntries x.blobs), t⟩)
    (hmap : s₁.blob.map = w.server.blob.map)
    (hwriter : w.shelf.writer t = some ⟨x.items, .waiting⟩)
    (hfree : w.server.blob.lockedFiles[fileId]? = none)
    (hinfo : w.server.blob.filePool[fileId]? = some info) :
    CreationEffect w t x s₁ (.waits (.redis
      (.setSize (blobEntries x.blobs) x.nodeId fileId needsCreation info.size info'') none)) where
  steps := by
    have htake : w.shelf.Step maxFileSize _ :=
      Shelf.Step.take fileId hwriter (holder_eq_none hfree)
    rw [size_eq_some hinfo, Option.getD_some] at htake
    refine (Relation.ReflTransGen.single htake).tail ?_
    have hreserve := reserve_step (((w.shelf.setSize fileId info.size.toNat).setHolder fileId
      (some t)).setWriter t ⟨x.items, .holding fileId⟩) (if_pos rfl) (if_pos rfl) (Eq.refl info.size)
    rw [base_of_take hpool hlocked hmap]
    convert hreserve using 1
    apply Shelf.ext
    case size =>
      funext f
      simp only [Shelf.setSize, Shelf.setHolder, Shelf.setWriter]
      split_ifs <;> rfl
    case writer =>
      funext session
      simp only [Shelf.setSize, Shelf.setHolder, Shelf.setWriter]
      split_ifs <;> rfl
    all_goals rfl
  locks := locks_of_take hlocked
  slices := fun key l hl => .inl (hmap ▸ hl)
  offset := by rintro _ ⟨⟩
  waits := by rintro _ ⟨⟩; rfl

theorem effect_of_reserve {needsCreation : Bool} {info'' : FileInfo}
    (hpool : s₁.blob.filePool =
      w.server.blob.filePool.insert fileId (info.grow (blobEntries x.blobs)))
    (hlocked : s₁.blob.lockedFiles = w.server.blob.lockedFiles)
    (hmap : s₁.blob.map = w.server.blob.map)
    (hwriter : w.shelf.writer t = some ⟨x.items, .holding fileId⟩)
    (hinfo : w.server.blob.filePool[fileId]? = some info) :
    CreationEffect w t x s₁ (.waits (.redis
      (.setSize (blobEntries x.blobs) x.nodeId fileId needsCreation info.size info'') none)) where
  steps := by
    rw [base_of_insert hpool hlocked hmap]
    exact .single (reserve_step w.shelf hwriter (size_eq_some hinfo) rfl)
  locks := fun fileId lock hlock => .inl (hlocked ▸ hlock)
  slices := fun key l hl => .inl (hmap ▸ hl)
  offset := by rintro _ ⟨⟩
  waits := by rintro _ ⟨⟩; rfl

end Locks

theorem keys_items (x : Session) : keys x.items = keysOf (blobEntries x.blobs) := by
  simp only [keys, Session.items, keysOf, blobEntries, List.map_map]
  rfl

theorem mem_slicesFrom {fileId : UInt32} {fileName : String} {offset : UInt64}
    {entries : List BlobEntry} {e : String × BlobStorageSlice}
    (h : e ∈ slicesFrom fileId fileName offset entries) :
    e.2.fileId = fileId ∧ e.2.fileName = fileName := by
  induction entries generalizing offset with
  | nil => cases h
  | cons entry entries ih =>
    rcases List.mem_cons.mp h with rfl | h
    · exact ⟨rfl, rfl⟩
    · exact ih h

/-- The slices of the creation are put into the map. -/
theorem effect_of_publish {fileId : UInt32} {byteOffset : UInt64} {needsCreation : Bool}
    {info : FileInfo} (hkeys : (keysOf (blobEntries x.blobs)).Nodup)
    (hwriter : w.shelf.writer t = some ⟨x.items, .reserved fileId byteOffset.toNat⟩)
    (hname : info.fileName = blobName fileId) :
    CreationEffect w t x (w.server.withBlob (w.server.blob.publish (blobEntries x.blobs) x.nodeId
        fileId needsCreation byteOffset info)).1
      (w.server.blob.publish (blobEntries x.blobs) x.nodeId fileId needsCreation byteOffset info).2 := by
  rw [BlobStorage.publish_eq]
  have hfst := BlobStorage.keys_wrappersFrom (blobEntries x.blobs) x.nodeId fileId byteOffset info
  have hplaced : ∀ e ∈ BlobStorage.wrappersFrom (blobEntries x.blobs) x.nodeId fileId byteOffset info,
      e.2.written = false ∧ e.2.slice.fileId = fileId ∧ e.2.slice.fileName = info.fileName := by
    intro e he
    obtain ⟨e', he', rfl⟩ := List.mem_map.mp he
    exact ⟨rfl, (mem_slicesFrom he').1, (mem_slicesFrom he').2⟩
  have hplaces : (BlobStorage.wrappersFrom (blobEntries x.blobs) x.nodeId fileId byteOffset info).map
      (fun e => (e.1, placeOf e.2.slice)) =
        (slicesFrom fileId info.fileName byteOffset (blobEntries x.blobs)).map
          fun e => (e.1, placeOf e.2) := by
    rw [BlobStorage.wrappersFrom, List.map_map]
    rfl
  generalize BlobStorage.wrappersFrom (blobEntries x.blobs) x.nodeId fileId byteOffset info = wrappers
    at hfst hplaced hplaces
  rw [← hfst] at hkeys
  have hmem {e : String × LockWrapper} (he : e ∈ wrappers) :=
    FiniteMap.getElem?_foldl_insert_of_mem hkeys w.server.blob.map he
  have hnot {key : String} (h : key ∉ wrappers.map Prod.fst) :=
    FiniteMap.getElem?_foldl_insert_of_not_mem (l := wrappers) w.server.blob.map (k := key)
      fun e he heq => h (heq ▸ List.mem_map_of_mem he)
  constructor
  case steps =>
    apply Relation.ReflTransGen.single
    apply Shelf.Step.list (wrappers.map fun e => (e.1, placeOf e.2.slice)) _ hwriter
    · rw [List.map_map, keys_items, ← hfst]
      rfl
    · intro hend
      rw [hplaces]
      exact places_slicesFrom fileId info.fileName x.blobs byteOffset hend
    · intro e he
      obtain ⟨e', he', rfl⟩ := List.mem_map.mp he
      dsimp only [shelf, withBlob]
      rw [hmem he', Option.map_some, (hplaced e' he').1]
    · intro key hkey
      rw [keys_items, ← hfst] at hkey
      dsimp only [shelf, withBlob]
      rw [hnot hkey]
  case locks => exact fun fileId lock hlock => .inl hlock
  case slices =>
    intro key l hl
    by_cases hkey : key ∈ wrappers.map Prod.fst
    · obtain ⟨e, he, rfl⟩ := List.mem_map.mp hkey
      cases hl.symm.trans (hmem he)
      obtain ⟨hwritten, hid, hfile⟩ := hplaced e he
      refine .inr ⟨?_, fun h => ?_⟩
      · rw [hid, hfile]
        exact hname
      · rw [hwritten] at h
        cases h
    · exact .inl ((hnot hkey).symm.trans hl)
  case offset => rintro _ ⟨⟩
  case waits => rintro _ ⟨⟩; rfl

/-- Where the call of the activity waits. -/
def awaitBefore : Activity → Option Await
  | .start _ => none
  | .resume a _ => some a.deaf

/-- Every part of a creation is a step of its writer. -/
theorem creationEffect (hids : w.server.IdsInv) (htracked : w.server.Tracked)
    (hshelf : w.shelf.Inv maxFileSize) (hx : w.sessions[t]? = some x) (hcreating : x.state = .creating)
    (hof : Activity.Of (.createAndLock (blobEntries x.blobs) x.nodeId) activity)
    (hbefore : awaitOf w.server t = awaitBefore activity)
    (hapart : ∀ a choice, activity = .resume a choice → ∀ fileId ∈ w.server.picks choice a,
      w.server.blob.lockedFiles[fileId]? = none)
    (h : Part w.server t activity s₁ p) : CreationEffect w t x s₁ p := by
  have hwriter : w.shelf.writer t =
      some ⟨x.items, SessionState.stage (awaitBefore activity) .creating⟩ := by
    rw [← hbefore, ← hcreating, shelf]
    dsimp only
    rw [hx]
    rfl
  cases h with
  | check hp => exact effect_of_checked hwriter hp
  | checkAbsent hp => exact effect_of_checked hwriter hp
  | checkLoaded hl hp =>
    -- the key would be in the map already
    cases hof with
    | resume hexpects =>
      cases hexpects
      have hmem := htracked.replies t _ hbefore rfl _ rfl
      have hkey := htracked.proper t _ hbefore _ List.mem_cons_self
      rw [← keys_items] at hkey
      have hnone := hshelf.unlisted t _ hwriter rfl _ hkey
      obtain ⟨l', hl'⟩ := FiniteMap.mem_iff_getElem?.mp hmem
      simp [shelf, hl'] at hnone
  | broken hreply => exact effect_of_panic rfl rfl rfl hwriter
  | pickNew hlock hsize hfile =>
    cases hof with
    | resume hexpects =>
      cases hexpects
      have hnew := nextFile_not_mem hids.dense hids.bounded
      rw [FiniteMap.mem_iff_getElem?, not_exists, ← hfile] at hnew
      exact effect_of_pickNew rfl rfl rfl hwriter
        (hapart _ _ rfl _ (by rw [picks, if_pos hsize, hfile]; rfl))
        (Option.eq_none_iff_forall_ne_some.mpr hnew)
  | pickFree hlock hsize hfree hinfo =>
    cases hof with
    | resume hexpects =>
      cases hexpects
      exact effect_of_pickFree rfl rfl rfl hwriter hfree hinfo
  | pickWait hlock hsize hinfo =>
    exact effect_of_same rfl rfl rfl hwriter (.inl rfl) (by rintro _ ⟨⟩) (by rintro _ ⟨⟩; rfl)
  | pickNone => exact effect_of_panic rfl rfl rfl hwriter
  | notified hinfo =>
    cases hof with
    | resume hexpects =>
      cases hexpects
      exact effect_of_pickFree rfl rfl rfl hwriter (hapart _ _ rfl _ rfl) hinfo
  | notifiedNone => exact effect_of_panic rfl rfl rfl hwriter
  | reserve hinfo =>
    cases hof with
    | resume hexpects =>
      cases hexpects
      exact effect_of_reserve rfl rfl rfl hwriter hinfo
  | reserveNone => exact effect_of_panic rfl rfl rfl hwriter
  | publish needsCreation byteOffset info =>
    cases hof with
    | resume hexpects =>
      cases hexpects with
      | setSize hkeys => exact effect_of_publish hkeys hwriter (htracked.proper t _ hbefore)
  | created o toSetInRedis =>
    have hname := htracked.proper t _ hbefore
    cases hof with
    | resume hexpects =>
      cases hexpects with
      | setSlices hkeys hfile htexts =>
        apply effect_of_same rfl rfl rfl hwriter (.inl rfl)
        · rintro _ ⟨⟩
          exact ⟨hname, hkeys⟩
        · rintro _ ⟨⟩
  | _ => rcases hof with _ | ⟨⟨⟩⟩

/-- What holds after a part of a creation. -/
theorem Inv.creation {action : Action}
    (hw : w.Inv (during w.server t (.createAndLock (blobEntries x.blobs) x.nodeId)) next)
    (hshelf : w.shelf.Inv maxFileSize) (hx : w.sessions[t]? = some x) (hcreating : x.state = .creating)
    (hruns : Runs w.server action t (.createAndLock (blobEntries x.blobs) x.nodeId) activity next)
    (haction : action.KeepsRunning)
    (hbefore : awaitOf w.server t = awaitBefore activity)
    (hapart : ∀ a choice, activity = .resume a choice → ∀ fileId ∈ w.server.picks choice a,
      w.server.blob.lockedFiles[fileId]? = none)
    (h : Part w.server t activity s₁ p) :
    Shelf.Steps maxFileSize w.shelf
      (w.hear (s₁.after t (.createAndLock (blobEntries x.blobs) x.nodeId) next p)
        (({ s₁ with nextCall := next } : Server).settle t
          (.createAndLock (blobEntries x.blobs) x.nodeId) p).2).shelf ∧
    (w.hear (s₁.after t (.createAndLock (blobEntries x.blobs) x.nodeId) next p)
      (({ s₁ with nextCall := next } : Server).settle t
        (.createAndLock (blobEntries x.blobs) x.nodeId) p).2).Sound := by
  have heffect := creationEffect hw.ids hw.tracked hshelf hx hcreating (hruns.of hw.expected)
    hbefore hapart h
  have hsteps := heffect.steps
  rw [← shelf_of_creation h hx hcreating] at hsteps
  · refine ⟨hsteps, hw.settle (hw.ids.part hruns h) ((Step.part hruns h).expected hw.expected)
      (hw.tracked.step hw.expected haction (.part hruns h)) h ?_ ?_ ?_ heffect.waits,
        Shelf.Steps.inv hsteps hshelf⟩
    · intro fileId lock hlock
      rcases heffect.locks fileId lock hlock with hold | rfl
      · exact hw.locks fileId lock hold
      · exact ⟨x, hx, rfl, rfl⟩
    · intro blob hp
      refine ⟨(heffect.offset blob hp).1, fun x' hx' => ?_⟩
      cases hx.symm.trans hx'
      exact (heffect.offset blob hp).2
    · intro key l hl
      exact (heffect.slices key l hl).elim (hw.slices key l) id
  · rintro session x' hx' blob call hstate rfl
    exact (hw.matched.unlocking session x' hx' blob t hstate).2 _ _ (if_pos rfl)

end Creation

end Store

end NpmFollower.BlobIdxClient
