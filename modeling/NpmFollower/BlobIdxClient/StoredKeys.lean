import NpmFollower.BlobIdxClient.FileCreation
import NpmFollower.BlobIdxServer.RefusedKeys

/-! # Stored keys

A session whose unlock has succeeded finds its keys written, at every later time,
unless its unlock has reached the lock of another session.
-/

namespace NpmFollower.BlobIdxClient

open Std BlobIdxServer Server Runs

/-- The session has sent its unlock, and has not failed. -/
def SessionState.unlocks : SessionState → Bool
  | unlocking _ _ => true
  | stored _ => true
  | _ => false

/-- A creation that has locked a file for its keys waits where its request may. -/
theorem request_of_holdsFor {request : Request} {a : Await} {fileId : UInt32} {keys : List String}
    (h : request.Expects a) (hholds : a.HoldsFor fileId keys) (hnot : a.listed = false) :
    ∃ entries nodeId, request = .createAndLock entries nodeId ∧ keysOf entries = keys := by
  cases h with
  | addFile => exact ⟨_, _, rfl, hholds.2⟩
  | setSize => exact ⟨_, _, rfl, hholds.2⟩
  | setSlices => cases hnot
  | _ => exact hholds.elim

namespace Store

/-- The unlock of a session does not reach the lock of another one of its node, no creation comes to
a reserved key in a locked file, and no written entry is put back. -/
def KeepsKeys (w : Store) : Move → Prop
  | .store blobs nodeId =>
    w.server.meetsReserved (.call (.createAndLock (blobEntries blobs) nodeId)) = false
  | .unlock session => ∀ x ∈ w.sessions[session]?, ∀ blob ∈ x.state.granted,
    ∀ lock ∈ w.server.blob.lockedFiles[blob.fileId]?, lock.nodeId = x.nodeId →
      lock.acquisition = session
  | .serve (.restart _) => False
  | .serve a => w.server.meetsReserved a = false ∧ w.server.unwrites a = false
  | _ => True

instance (w : Store) : (m : Move) → Decidable (w.KeepsKeys m)
  | .store blobs nodeId => inferInstanceAs
    (Decidable (w.server.meetsReserved (.call (.createAndLock (blobEntries blobs) nodeId)) = false))
  | .unlock session => inferInstanceAs (Decidable (∀ x ∈ w.sessions[session]?,
      ∀ blob ∈ x.state.granted, ∀ lock ∈ w.server.blob.lockedFiles[blob.fileId]?,
        lock.nodeId = x.nodeId → lock.acquisition = session))
  | .serve (.restart _) => isFalse id
  | .serve (.call request) => inferInstanceAs (Decidable
      (w.server.meetsReserved (.call request) = false ∧ w.server.unwrites (.call request) = false))
  | .serve (.execute t) => inferInstanceAs (Decidable
      (w.server.meetsReserved (.execute t) = false ∧ w.server.unwrites (.execute t) = false))
  | .serve (.resume t choice) => inferInstanceAs (Decidable
      (w.server.meetsReserved (.resume t choice) = false ∧
        w.server.unwrites (.resume t choice) = false))
  | .serve (.tick cleaner) => inferInstanceAs (Decidable
      (w.server.meetsReserved (.tick cleaner) = false ∧ w.server.unwrites (.tick cleaner) = false))
  | .serve (.receive cleaner) => inferInstanceAs (Decidable
      (w.server.meetsReserved (.receive cleaner) = false ∧
        w.server.unwrites (.receive cleaner) = false))
  | .openFile _ | .write _ _ | .keepAlive _ | .lookup _ => isTrue trivial

/-- What holds of the sessions while a call runs as well. -/
structure KeysInv (w : Store) (requests : CallId → Option Request) (next : CallId) : Prop where
  expected : w.server.Expected
  tracked : w.server.Tracked
  matched : Matched w.sessions requests next
  locks : ∀ (fileId : UInt32) (lock : FileLock), w.server.blob.lockedFiles[fileId]? = some lock →
    ∃ x : Session, w.sessions[lock.acquisition]? = some x ∧ lock.keys = keysOf (blobEntries x.blobs)
  listed : ∀ (session : CallId) (x : Session), w.sessions[session]? = some x → x.state.accepted →
    ∀ key ∈ keysOf (blobEntries x.blobs), key ∈ w.server.blob.map

/-- The keys of a session that has sent its unlock are written. -/
structure KeysKept (w : Store) : Prop where
  inv : w.KeysInv w.server.requestOf w.server.nextCall
  written : ∀ (session : CallId) (x : Session), w.sessions[session]? = some x → x.state.unlocks →
    ∀ key ∈ keysOf (blobEntries x.blobs), w.server.blob.isWritten key

variable {w w' : Store} {session : CallId} {x : Session} {es : List Event}

theorem unlocks_of_receive {state : SessionState} {e : Event}
    (h : (state.receive session e).unlocks) : state.unlocks := by
  cases state with
  | creating =>
    rw [SessionState.receive] at h
    split_ifs at h
    · split at h <;> cases h
    · cases h
  | unlocking blob call => rfl
  | _ => exact h

theorem unlocks_of_events {state : SessionState}
    (h : (es.foldl (fun state e => state.receive session e) state).unlocks) : state.unlocks := by
  induction es generalizing state with
  | nil => exact h
  | cons e es ih => exact unlocks_of_receive (ih h)

section Parts

variable {s₁ : Server} {t : CallId} {p : Progress} {activity : Activity} {request : Request}
  {next : CallId} {a : Action}

/-- A session whose creation has returned a slot has its keys in the map. -/
theorem KeysInv.listed_of_offset (hw : w.KeysInv (during w.server t request) next)
    (hruns : Runs w.server a t request activity next) {blob : BlobOffset}
    (h : Part w.server t activity s₁ (.returns (.offset blob))) (hx : w.sessions[t]? = some x) :
    ∀ key ∈ keysOf (blobEntries x.blobs), key ∈ s₁.blob.map := by
  intro key hkey
  apply h.mem_map
  obtain ⟨toSetInRedis, choice, rfl⟩ := h.offset_eq
  have hat := hruns.at_resume
  have hof := hruns.of hw.expected
  cases hof with
  | resume hexpects =>
    cases hexpects with
    | setSlices hkeys hname htexts =>
      rename_i entries nodeId info
      obtain ⟨x', hx', hcreating⟩ := hw.matched.creators t entries nodeId (if_pos rfl)
      cases hx.symm.trans hx'
      have hrequest := hw.matched.creating t x hx hcreating
      rw [during, if_pos rfl] at hrequest
      cases hrequest
      have hmap : toSetInRedis.map Prod.fst = keysOf (blobEntries x.blobs) := by
        rw [htexts, List.map_map, ← BlobStorage.keys_wrappersFrom (blobEntries x.blobs) x.nodeId
          blob.fileId blob.byteOffset info]
        rfl
      rw [← hmap] at hkey
      obtain ⟨e, he, rfl⟩ := List.mem_map.mp hkey
      exact hw.tracked.texts t _ hat e he

theorem KeysInv.settle (hw : w.KeysInv (during w.server t request) next)
    (hruns : Runs w.server a t request activity next) (haction : a.KeepsRunning)
    (h : Part w.server t activity s₁ p)
    (hwritten : ∀ (session : CallId) (x : Session), w.sessions[session]? = some x →
      ((({ s₁ with nextCall := next } : Server).settle t request p).2.foldl
        (fun state e => state.receive session e) x.state).unlocks →
          ∀ key ∈ keysOf (blobEntries x.blobs), s₁.blob.isWritten key) :
    (w.hear (s₁.after t request next p)
      (({ s₁ with nextCall := next } : Server).settle t request p).2).KeysKept := by
  have hof := hruns.of hw.expected
  have hstep := Step.part hruns h
  refine ⟨⟨hstep.expected hw.expected, hw.tracked.step hw.expected haction hstep, ?_, ?_, ?_⟩, ?_⟩
  · have hmatched := hw.matched.settle h
    change Matched _ _ (s₁.after t request next p).nextCall
    rwa [after_nextCall]
  · intro fileId lock hlock
    change (s₁.after t request next p).blob.lockedFiles[fileId]? = some lock at hlock
    rw [after_blob] at hlock
    have hfound : ∃ x : Session, w.sessions[lock.acquisition]? = some x ∧
        lock.keys = keysOf (blobEntries x.blobs) := by
      rcases h.lock_cases hlock with hold | ⟨hacquisition, -, a', hp, hholds, hnot⟩
      · exact hw.locks fileId lock hold
      · obtain ⟨entries, nodeId, rfl, hkeys⟩ :=
          request_of_holdsFor (h.expects hof a' hp) hholds hnot
        obtain ⟨x, hx, hcreating⟩ := hw.matched.creators t entries nodeId (if_pos rfl)
        have hrequest := hw.matched.creating t x hx hcreating
        rw [during, if_pos rfl] at hrequest
        cases hrequest
        exact ⟨x, by rw [hacquisition, hx], hkeys.symm⟩
    obtain ⟨x, hx, hkeys⟩ := hfound
    rw [getElem?_hear, hx]
    exact ⟨_, rfl, hkeys⟩
  · intro session x' hx' haccepted key hkey
    change key ∈ (s₁.after t request next p).blob.map
    rw [after_blob]
    rw [getElem?_hear] at hx'
    obtain ⟨x, hx, rfl⟩ := Option.map_eq_some_iff.mp hx'
    cases p with
    | waits a' => exact h.mem_map (hw.listed session x hx haccepted key hkey)
    | returns r =>
      rcases accepted_of_receive haccepted with hold | ⟨hcall, blob, hresponse⟩
      · exact h.mem_map (hw.listed session x hx hold key hkey)
      · dsimp only at hcall hresponse
        subst hcall hresponse
        exact hw.listed_of_offset hruns h hx key hkey
  · intro session x' hx' hunlocks key hkey
    change (s₁.after t request next p).blob.isWritten key
    rw [after_blob]
    rw [getElem?_hear] at hx'
    obtain ⟨x, hx, rfl⟩ := Option.map_eq_some_iff.mp hx'
    exact hwritten session x hx hunlocks key hkey

/-- The first part of an unlock has written all keys, if the lock that it finds is for them. -/
theorem written_of_unlock {s : Server} {fileId : UInt32} {nodeId : String} {keys : List String}
    (h : Part s t (.start (.createUnlock fileId nodeId)) s₁ p)
    (hlock : ∀ lock ∈ s.blob.lockedFiles[fileId]?, lock.nodeId = nodeId → lock.keys = keys)
    (hmem : ∀ key ∈ keys, key ∈ s.blob.map) :
    (∃ r, p = .returns r ∧ r ≠ .unlocked) ∨ ∀ key ∈ keys, s₁.blob.isWritten key := by
  cases h with
  | notLocked => exact .inl ⟨_, rfl, by rintro ⟨⟩⟩
  | wrongNode => exact .inl ⟨_, rfl, by rintro ⟨⟩⟩
  | unlock hlocked hnode =>
    rename_i lock
    obtain rfl := hlock lock hlocked hnode
    have hmarked := marked_of_mem (BlobStorage.markKeys_marked (b := (s.removeLock fileId).blob)
      fileId lock.keys []) hmem
    rcases hmarked with ⟨-, hp⟩ | ⟨-, hall, -⟩
    · exact .inl ⟨.panicked, hp, by rintro ⟨⟩⟩
    · right
      intro key hkey
      obtain ⟨l, hl⟩ := FiniteMap.mem_iff_getElem?.mp (hmem key hkey)
      have hmarkable : key ∈ (s.removeLock fileId).blob.markable lock.keys := by rwa [hall]
      have hlegal := List.mem_takeWhile_imp hmarkable
      refine BlobStorage.isWritten_iff.mpr
        ⟨of_decide_eq_true (Bool.and_eq_true_iff.mp hlegal).1, l.marked, ?_, rfl⟩
      rw [withBlob, BlobStorage.markKeys_map, if_pos hmarkable]
      exact congrArg (Option.map _) hl

end Parts

section Steps

/-- A step of the server that concerns no session. -/
theorem KeysKept.silent (hw : w.KeysKept) {s₁ : Server} (hexpected : s₁.Expected)
    (htracked : s₁.Tracked) (hmap : s₁.blob.map = w.server.blob.map)
    (hlocks : ∀ (fileId : UInt32) (lock : FileLock), s₁.blob.lockedFiles[fileId]? = some lock →
      w.server.blob.lockedFiles[fileId]? = some lock)
    (hrequests : s₁.requestOf = w.server.requestOf) (hnext : s₁.nextCall = w.server.nextCall) :
    (w.hear s₁ []).KeysKept := by
  rw [hear_nil]
  constructor
  case inv =>
    refine ⟨hexpected, htracked, ?_, fun fileId lock hlock => ?_, ?_⟩
    · dsimp only
      rw [hrequests, hnext]
      exact hw.inv.matched
    · exact hw.inv.locks fileId lock (hlocks fileId lock hlock)
    · dsimp only
      rw [hmap]
      exact hw.inv.listed
  case written =>
    intro session x hx hunlocks key hkey
    have hold := hw.written session x hx hunlocks key hkey
    rw [BlobStorage.isWritten, hmap]
    exact hold

/-- The server goes on by itself. -/
theorem KeysKept.serve (hw : w.KeysKept) {a : Action} (haction : a.KeepsRunning)
    (hcalls : ∀ request, a ≠ .call request) (hkept : w.server.unwrites a = false)
    (h : w.serve a = some (w', es)) : w'.KeysKept := by
  obtain ⟨s', hstep, rfl⟩ := exists_of_serve h
  have hthis := step_of_eq hstep
  have hwritten : ∀ key, w.server.blob.isWritten key → s'.blob.isWritten key :=
    fun key => isWritten_step hstep haction hkept
  have hexpected := hthis.expected hw.inv.expected
  have htracked := hw.inv.tracked.step hw.inv.expected haction hthis
  cases hthis with
  | part hruns part =>
    cases hruns with
    | start => exact absurd rfl (hcalls _)
    | resume hcall =>
      have hinv := hw.inv
      rw [← during_resume hcall] at hinv
      apply hinv.settle (.resume hcall) haction part
      intro session x hx hunlocks key hkey
      have hthen := hwritten key (hw.written session x hx (unlocks_of_events hunlocks) key hkey)
      rwa [after_blob] at hthen
  | execute hcall =>
    exact hw.silent hexpected htracked rfl (fun _ _ => id) (funext (requestOf_executed hcall)) rfl
  | expire hcleaner hlock =>
    refine hw.silent hexpected htracked rfl ?_ (funext (requestOf_notifyWaiters _)) rfl
    intro fileId lock hlocked
    change (w.server.blob.lockedFiles.erase _)[fileId]? = some lock at hlocked
    rw [FiniteMap.getElem?_erase] at hlocked
    split_ifs at hlocked
    exact hlocked
  | stop => exact hw.silent hexpected htracked rfl (fun _ _ => id) rfl rfl
  | receive => exact hw.silent hexpected htracked rfl (fun _ _ => id) rfl rfl
  | restart => exact haction.elim

/-- A call other than a creation starts, and is not the unlock of a session. -/
theorem KeysKept.call (hw : w.KeysKept) {request : Request}
    (hrequest : ∀ entries nodeId, request ≠ .createAndLock entries nodeId)
    (h : w.serve (.call request) = some (w', es)) : w'.KeysKept := by
  obtain ⟨s', hstep, rfl⟩ := exists_of_serve h
  have hwritten : ∀ key, w.server.blob.isWritten key → s'.blob.isWritten key :=
    fun key => isWritten_step hstep trivial rfl
  cases step_of_eq hstep with
  | part hruns part =>
    cases hruns
    have hinv : w.KeysInv (during w.server w.server.nextCall request) (w.server.nextCall + 1) :=
      ⟨hw.inv.expected, hw.inv.tracked, hw.inv.matched.start request hrequest, hw.inv.locks,
        hw.inv.listed⟩
    apply hinv.settle (.start request) trivial part
    intro session x hx hunlocks key hkey
    have hthen := hwritten key (hw.written session x hx (unlocks_of_events hunlocks) key hkey)
    rwa [after_blob] at hthen

/-- A session goes on by itself. -/
theorem KeysKept.setSession (hw : w.KeysKept) (hx : w.sessions[session]? = some x)
    {state : SessionState} (hold : x.state.granted.isSome) (hnew : state.unlocks = false)
    (hcreating : state ≠ .creating) : (w.setSession session x state).KeysKept := by
  have haccepted : x.state.accepted ∧ x.state ≠ .creating := by
    cases hstate : x.state with
    | locked => exact ⟨rfl, by rintro ⟨⟩⟩
    | writing => exact ⟨rfl, by rintro ⟨⟩⟩
    | _ => rw [hstate] at hold; cases hold
  have hmatched : Matched (w.setSession session x state).sessions w.server.requestOf
      w.server.nextCall :=
    hw.inv.matched.setSession hx haccepted.2 hcreating (by rintro blob call rfl; cases hnew)
  constructor
  case inv =>
    refine ⟨hw.inv.expected, hw.inv.tracked, hmatched, ?_, ?_⟩
    · intro fileId lock hlock
      obtain ⟨x', hx', hkeys⟩ := hw.inv.locks fileId lock hlock
      rw [getElem?_setSession]
      split_ifs with hsession
      · subst hsession
        cases hx.symm.trans hx'
        exact ⟨_, rfl, hkeys⟩
      · exact ⟨x', hx', hkeys⟩
    · intro session' x' hx' hthen
      rw [getElem?_setSession] at hx'
      split_ifs at hx'
      · cases hx'
        exact hw.inv.listed session x hx haccepted.1
      · exact hw.inv.listed session' x' hx' hthen
  case written =>
    intro session' x' hx' hunlocks
    rw [getElem?_setSession] at hx'
    split_ifs at hx'
    · cases hx'
      dsimp only at hunlocks
      rw [hnew] at hunlocks
      cases hunlocks
    · exact hw.written session' x' hx' hunlocks

theorem KeysKept.setFile (hw : w.KeysKept) (fileName : String) (bytes : List UInt8) :
    (w.setFile fileName bytes).KeysKept :=
  ⟨⟨hw.inv.expected, hw.inv.tracked, hw.inv.matched, hw.inv.locks, hw.inv.listed⟩, hw.written⟩

theorem KeysKept.openFile (hw : w.KeysKept) (h : w.openFile session = some w') : w'.KeysKept := by
  obtain ⟨x, hx, hrest⟩ := Option.bind_eq_some_iff.mp h
  split at hrest
  · rename_i blob hstate
    have hold : x.state.granted.isSome := by
      rw [hstate]
      rfl
    split at hrest
    · cases hrest
      exact hw.setSession hx hold rfl (by rintro ⟨⟩)
    · cases hrest
      exact hw.setSession hx hold rfl (by rintro ⟨⟩)
    · have hopened := hw.setFile blob.fileName ((w.files[blob.fileName]?).getD [])
      dsimp only at hrest
      split_ifs at hrest
      · cases hrest
        exact hopened.setSession hx hold rfl (by rintro ⟨⟩)
      · cases hrest
        exact hopened.setSession hx hold rfl (by rintro ⟨⟩)
  · cases hrest

theorem KeysKept.write (hw : w.KeysKept) {n : ℕ} (h : w.write session n = some w') :
    w'.KeysKept := by
  obtain ⟨x, hx, hrest⟩ := Option.bind_eq_some_iff.mp h
  split at hrest
  · rename_i blob position bytes rest hstate
    have hold : x.state.granted.isSome := by
      rw [hstate]
      rfl
    split_ifs at hrest
    · cases hrest
      exact hw.setSession hx hold rfl (by rintro ⟨⟩)
    · obtain ⟨file, hfile, hrest⟩ := Option.bind_eq_some_iff.mp hrest
      dsimp only at hrest
      split_ifs at hrest <;> cases hrest
      · exact (hw.setFile _ _).setSession hx hold rfl (by rintro ⟨⟩)
      · exact hw.setSession hx hold rfl (by rintro ⟨⟩)
  · cases hrest

/-- A session starts. -/
theorem KeysKept.store (hw : w.KeysKept) {blobs : List Blob} {nodeId : String}
    (h : w.step (.store blobs nodeId) = some (w', es)) : w'.KeysKept := by
  obtain ⟨s', hstep, rfl⟩ := exists_of_serve h
  have hwritten : ∀ key, w.server.blob.isWritten key → s'.blob.isWritten key :=
    fun key => isWritten_step hstep trivial rfl
  have hnew : w.sessions[w.server.nextCall]? = none := by
    apply Option.eq_none_iff_forall_ne_some.mpr
    intro x hx
    exact lt_irrefl _ (hw.inv.matched.known _ x hx)
  cases step_of_eq hstep with
  | part hruns part =>
    cases hruns
    have hinv : (w.addSession blobs nodeId).KeysInv
        (during w.server w.server.nextCall (.createAndLock (blobEntries blobs) nodeId))
          (w.server.nextCall + 1) := by
      refine ⟨hw.inv.expected, hw.inv.tracked, hw.inv.matched.begin blobs nodeId, ?_, ?_⟩
      · intro fileId lock hlock
        obtain ⟨x, hx, hkeys⟩ := hw.inv.locks fileId lock hlock
        refine ⟨x, ?_, hkeys⟩
        rw [getElem?_addSession, if_neg, hx]
        intro hsession
        rw [← hsession, hnew] at hx
        cases hx
      · intro session x hx haccepted
        rw [getElem?_addSession] at hx
        split_ifs at hx
        · cases hx
          cases haccepted
        · exact hw.inv.listed session x hx haccepted
    apply hinv.settle (.start _) trivial part
    intro session x hx hunlocks key hkey
    rw [getElem?_addSession] at hx
    split_ifs at hx
    · cases hx
      cases unlocks_of_events hunlocks
    · have hthen := hwritten key (hw.written session x hx (unlocks_of_events hunlocks) key hkey)
      rwa [after_blob] at hthen

/-- A session sends its unlock, which does not reach the lock of another session of its node. -/
theorem KeysKept.unlock (hw : w.KeysKept) (hkeeps : w.KeepsKeys (.unlock session))
    (h : w.unlock session = some (w', es)) : w'.KeysKept := by
  obtain ⟨x, hx, hrest⟩ := Option.bind_eq_some_iff.mp h
  split at hrest
  · rename_i blob position hstate
    obtain ⟨s', hstep, rfl⟩ := exists_of_serve hrest
    have hwritten : ∀ key, w.server.blob.isWritten key → s'.blob.isWritten key :=
      fun key => isWritten_step hstep trivial rfl
    have hlisted := hw.inv.listed session x hx (by rw [hstate]; rfl)
    have hlock : ∀ lock ∈ w.server.blob.lockedFiles[blob.fileId]?, lock.nodeId = x.nodeId →
        lock.keys = keysOf (blobEntries x.blobs) := by
      intro lock hlock hnode
      obtain ⟨x', hx', hkeys⟩ := hw.inv.locks blob.fileId lock hlock
      have hown := hkeeps x hx blob (by rw [hstate]; rfl) lock hlock hnode
      rw [hown] at hx'
      cases hx.symm.trans hx'
      exact hkeys
    cases step_of_eq hstep with
    | part hruns part =>
      cases hruns
      have hmatched : Matched (w.setSession session x (.unlocking blob w.server.nextCall)).sessions
          (during w.server w.server.nextCall (.createUnlock blob.fileId x.nodeId))
            (w.server.nextCall + 1) := by
        apply (hw.inv.matched.start _ (by rintro _ _ ⟨⟩)).setSession hx (by rw [hstate]; rintro ⟨⟩)
          (by rintro ⟨⟩)
        rintro _ _ ⟨⟩
        refine ⟨Nat.lt_succ_self _, fun entries nodeId heq => ?_⟩
        rw [during, if_pos rfl] at heq
        cases heq
      have hinv : (w.setSession session x (.unlocking blob w.server.nextCall)).KeysInv
          (during w.server w.server.nextCall (.createUnlock blob.fileId x.nodeId))
            (w.server.nextCall + 1) := by
        refine ⟨hw.inv.expected, hw.inv.tracked, hmatched, ?_, ?_⟩
        · intro fileId lock hlock
          obtain ⟨x', hx', hkeys⟩ := hw.inv.locks fileId lock hlock
          rw [getElem?_setSession]
          split_ifs with hsession
          · subst hsession
            cases hx.symm.trans hx'
            exact ⟨_, rfl, hkeys⟩
          · exact ⟨x', hx', hkeys⟩
        · intro session' x' hx' haccepted
          rw [getElem?_setSession] at hx'
          split_ifs at hx'
          · cases hx'
            exact hlisted
          · exact hw.inv.listed session' x' hx' haccepted
      apply hinv.settle (.start _) trivial part
      intro session' x' hx' hunlocks key hkey
      rw [getElem?_setSession] at hx'
      split_ifs at hx'
      · cases hx'
        rcases written_of_unlock part hlock hlisted with ⟨r, rfl, hr⟩ | hall
        · dsimp only [settle, List.foldl_cons, List.foldl_nil] at hunlocks
          rw [SessionState.receive, if_pos rfl] at hunlocks
          split at hunlocks
          · rename_i heq
            exact absurd heq hr
          · cases hunlocks
        · exact hall key hkey
      · have hthen := hwritten key
          (hw.written session' x' hx' (unlocks_of_events hunlocks) key hkey)
        rwa [after_blob] at hthen
  · cases hrest

theorem KeysKept.step (hw : w.KeysKept) {m : Move} (hkeeps : w.KeepsKeys m)
    (h : w.step m = some (w', es)) : w'.KeysKept := by
  cases m with
  | store blobs nodeId => exact hw.store h
  | openFile session =>
    obtain ⟨w'', hopen, heq⟩ := Option.map_eq_some_iff.mp h
    cases heq
    exact hw.openFile hopen
  | write session n =>
    obtain ⟨w'', hwrite, heq⟩ := Option.map_eq_some_iff.mp h
    cases heq
    exact hw.write hwrite
  | unlock session => exact hw.unlock hkeeps h
  | keepAlive fileId => exact hw.call (by rintro _ _ ⟨⟩) h
  | lookup key => exact hw.call (by rintro _ _ ⟨⟩) h
  | serve a =>
    cases a with
    | call request => cases h
    | restart config => exact hkeeps.elim
    | execute t => exact hw.serve (a := .execute t) trivial (by rintro _ ⟨⟩) hkeeps.2 h
    | resume t choice => exact hw.serve (a := .resume t choice) trivial (by rintro _ ⟨⟩) hkeeps.2 h
    | tick cleaner => exact hw.serve (a := .tick cleaner) trivial (by rintro _ ⟨⟩) hkeeps.2 h
    | receive cleaner => exact hw.serve (a := .receive cleaner) trivial (by rintro _ ⟨⟩) hkeeps.2 h

theorem keysKept_start {config : BlobStorageConfig} (h : start config = some w) : w.KeysKept := by
  have hw := sound_start h
  obtain ⟨s, hboot, rfl⟩ := Option.map_eq_some_iff.mp h
  refine ⟨⟨hw.inv.expected, hw.inv.tracked, hw.inv.matched, ?_, by simp⟩, by simp⟩
  intro fileId lock hlock
  obtain ⟨x, hx, -, hkeys⟩ := hw.inv.locks fileId lock hlock
  exact ⟨x, hx, hkeys⟩

/-- What a move does to the server. -/
theorem server_step {m : Move} (h : w.step m = some (w', es)) :
    (w'.server = w.server ∧ es = []) ∨ ∃ a, w.server.step a = some (w'.server, es) ∧
      (w.KeepsKeys m → a.KeepsRunning ∧ w.server.meetsReserved a = false ∧
        w.server.unwrites a = false) := by
  have hserve {w₁ : Store} {a : Action} (hserve : w₁.serve a = some (w', es))
      (hsame : w₁.server = w.server) : w.server.step a = some (w'.server, es) := by
    obtain ⟨s', hstep, rfl⟩ := exists_of_serve hserve
    rw [← hsame]
    exact hstep
  cases m with
  | store blobs nodeId =>
    exact .inr ⟨.call _, hserve h rfl, fun hkeeps => ⟨trivial, hkeeps, rfl⟩⟩
  | openFile session =>
    obtain ⟨w'', hopen, heq⟩ := Option.map_eq_some_iff.mp h
    cases heq
    obtain ⟨x, hx, hrest⟩ := Option.bind_eq_some_iff.mp hopen
    left
    split at hrest
    · split at hrest
      · cases hrest
        exact ⟨rfl, rfl⟩
      · cases hrest
        exact ⟨rfl, rfl⟩
      · dsimp only at hrest
        split_ifs at hrest <;> cases hrest <;> exact ⟨rfl, rfl⟩
    · cases hrest
  | write session n =>
    obtain ⟨w'', hwrite, heq⟩ := Option.map_eq_some_iff.mp h
    cases heq
    obtain ⟨x, hx, hrest⟩ := Option.bind_eq_some_iff.mp hwrite
    left
    split at hrest
    · split_ifs at hrest
      · cases hrest
        exact ⟨rfl, rfl⟩
      · obtain ⟨file, hfile, hrest⟩ := Option.bind_eq_some_iff.mp hrest
        dsimp only at hrest
        split_ifs at hrest <;> cases hrest <;> exact ⟨rfl, rfl⟩
    · cases hrest
  | unlock session =>
    obtain ⟨x, hx, hrest⟩ := Option.bind_eq_some_iff.mp h
    split at hrest
    · exact .inr ⟨.call _, hserve hrest rfl, fun _ => ⟨trivial, rfl, rfl⟩⟩
    · cases hrest
  | keepAlive fileId => exact .inr ⟨.call _, hserve h rfl, fun _ => ⟨trivial, rfl, rfl⟩⟩
  | lookup key => exact .inr ⟨.call _, hserve h rfl, fun _ => ⟨trivial, rfl, rfl⟩⟩
  | serve a =>
    cases a with
    | call request => cases h
    | restart config => exact .inr ⟨_, hserve h rfl, fun hkeeps => hkeeps.elim⟩
    | execute t => exact .inr ⟨.execute t, hserve h rfl, fun hkeeps => ⟨trivial, hkeeps⟩⟩
    | resume t choice => exact .inr ⟨.resume t choice, hserve h rfl, fun hkeeps => ⟨trivial, hkeeps⟩⟩
    | tick cleaner => exact .inr ⟨.tick cleaner, hserve h rfl, fun hkeeps => ⟨trivial, hkeeps⟩⟩
    | receive cleaner => exact .inr ⟨.receive cleaner, hserve h rfl, fun hkeeps => ⟨trivial, hkeeps⟩⟩

theorem KeepsKeys.isWritten {m : Move} (hkeeps : w.KeepsKeys m) (h : w.step m = some (w', es))
    {key : String} (hwritten : w.server.blob.isWritten key) : w'.server.blob.isWritten key := by
  rcases server_step h with ⟨hserver, -⟩ | ⟨a, hstep, hkept⟩
  · rwa [hserver]
  · obtain ⟨haction, -, hunwrites⟩ := hkept hkeeps
    exact isWritten_step hstep haction hunwrites hwritten

theorem KeepsKeys.isWritten_of_refused {m : Move} (hkeeps : w.KeepsKeys m)
    (h : w.step m = some (w', es)) {e : Event} (he : e ∈ es) {key : String}
    (hrefused : e.response = .error (.alreadyExists key)) : w'.server.blob.isWritten key := by
  rcases server_step h with ⟨-, rfl⟩ | ⟨a, hstep, hkept⟩
  · cases he
  · exact Server.isWritten_of_refused hstep (hkept hkeeps).2.1 he hrefused

/-- A session keeps its blobs. -/
theorem blobs_step {m : Move} (h : w.step m = some (w', es)) (hx : w.sessions[session]? = some x)
    (hknown : session < w.server.nextCall) :
    ∃ x' : Session, w'.sessions[session]? = some x' ∧ x'.blobs = x.blobs := by
  have hserve : ∀ (w₁ : Store) (a : Action) (x₁ : Session), w₁.serve a = some (w', es) →
      w₁.sessions[session]? = some x₁ → x₁.blobs = x.blobs →
        ∃ x' : Session, w'.sessions[session]? = some x' ∧ x'.blobs = x.blobs := by
    intro w₁ a x₁ hserve hx₁ hblobs
    obtain ⟨s', hstep, rfl⟩ := exists_of_serve hserve
    rw [getElem?_hear, hx₁]
    exact ⟨_, rfl, hblobs⟩
  have hset : ∀ (w₁ : Store) (session₁ : CallId) (y : Session) (state : SessionState),
      w₁.sessions = w.sessions → w₁.sessions[session₁]? = some y →
        ∃ x' : Session, (w₁.setSession session₁ y state).sessions[session]? = some x' ∧
          x'.blobs = x.blobs := by
    intro w₁ session₁ y state hsame hy
    rw [getElem?_setSession]
    split_ifs with hsession
    · subst hsession
      rw [hsame] at hy
      cases hx.symm.trans hy
      exact ⟨_, rfl, rfl⟩
    · exact ⟨x, by rw [hsame, hx], rfl⟩
  cases m with
  | store blobs nodeId =>
    refine hserve _ _ x h ?_ rfl
    change (w.addSession blobs nodeId).sessions[session]? = some x
    rw [getElem?_addSession, if_neg hknown.ne', hx]
  | openFile session₁ =>
    obtain ⟨w'', hopen, heq⟩ := Option.map_eq_some_iff.mp h
    cases heq
    obtain ⟨y, hy, hrest⟩ := Option.bind_eq_some_iff.mp hopen
    split at hrest
    · split at hrest
      · cases hrest
        exact hset w _ _ _ rfl hy
      · cases hrest
        exact hset w _ _ _ rfl hy
      · dsimp only at hrest
        split_ifs at hrest <;> cases hrest <;> exact hset (w.setFile _ _) _ _ _ rfl hy
    · cases hrest
  | write session₁ n =>
    obtain ⟨w'', hwrite, heq⟩ := Option.map_eq_some_iff.mp h
    cases heq
    obtain ⟨y, hy, hrest⟩ := Option.bind_eq_some_iff.mp hwrite
    split at hrest
    · split_ifs at hrest
      · cases hrest
        exact hset w _ _ _ rfl hy
      · obtain ⟨file, hfile, hrest⟩ := Option.bind_eq_some_iff.mp hrest
        dsimp only at hrest
        split_ifs at hrest <;> cases hrest
        · exact hset (w.setFile _ _) _ _ _ rfl hy
        · exact hset w _ _ _ rfl hy
    · cases hrest
  | unlock session₁ =>
    obtain ⟨y, hy, hrest⟩ := Option.bind_eq_some_iff.mp h
    split at hrest
    · obtain ⟨x₁, hx₁, hblobs⟩ := hset w session₁ y (.unlocking _ w.server.nextCall) rfl hy
      exact hserve _ _ x₁ hrest hx₁ hblobs
    · cases hrest
  | keepAlive fileId => exact hserve _ _ x h hx rfl
  | lookup key => exact hserve _ _ x h hx rfl
  | serve a => cases a <;> first | exact hserve _ _ x h hx rfl | cases h

end Steps

end Store

end NpmFollower.BlobIdxClient
