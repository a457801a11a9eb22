import NpmFollower.BlobIdxClient.Writers

/-! # What the sessions do to the files

The other calls, the unlock of a session, and its writes are steps of the writers
as well.
-/

namespace NpmFollower.BlobIdxClient

open Std BlobIdxServer Server Runs SharedFiles

namespace Store

variable {w w' : Store}

section Others

variable {s₁ : Server} {t : CallId} {x : Session} {p : Progress} {activity : Activity}
  {request : Request} {next : CallId} {session : CallId}

/-- Where its call waits matters while a session waits for it. -/
theorem stage_congr {state : SessionState} {a a' : Option Await} (h : state = .creating → a = a') :
    state.stage a = state.stage a' := by
  cases state with
  | creating => rw [h rfl]
  | _ => rfl

theorem stage_receive {state : SessionState} (session : CallId) (e : Event) (a : Option Await)
    (h : state = .creating → e.call ≠ session) :
    (state.receive session e).stage a = state.stage a ∨
      (state.receive session e).stage a = .ended := by
  cases state with
  | creating => exact .inl (congrArg _ (if_neg (h rfl)))
  | unlocking blob call =>
    rw [SessionState.receive]
    split_ifs
    · split
      · exact .inl rfl
      · exact .inr rfl
    · exact .inl rfl
  | _ => exact .inl rfl

/-- A part of another call lets at most a session give up. -/
theorem shelf_of_other (request : Request) (next : CallId) (h : Part w.server t activity s₁ p)
    (hbase : w.base s₁ = w.shelf)
    (hother : ∀ (session : CallId) (x : Session), w.sessions[session]? = some x →
      x.state = .creating → t ≠ session) :
    w.shelf.Step maxFileSize (w.hear (s₁.after t request next p)
      (({ s₁ with nextCall := next } : Server).settle t request p).2).shelf := by
  have hshelf : (w.hear (s₁.after t request next p)
      (({ s₁ with nextCall := next } : Server).settle t request p).2).shelf =
        { w.shelf with writer := (w.hear (s₁.after t request next p)
          (({ s₁ with nextCall := next } : Server).settle t request p).2).shelf.writer } := by
    rw [← hbase]
    simp only [shelf, base, hear, after_blob]
  rw [hshelf]
  apply Shelf.Step.gaveUp
  intro session
  dsimp only [shelf]
  rw [getElem?_hear, hear, awaitOf_after h]
  cases hx : w.sessions[session]? with
  | none => exact .inl rfl
  | some x =>
    have hne := hother session x hx
    have hstage : ∀ own : Option Await,
        x.state.stage (if t = session then own else awaitOf w.server session) =
          x.state.stage (awaitOf w.server session) :=
      fun own => stage_congr fun hcreating => if_neg (hne hcreating)
    rw [Option.map_some, Option.map_some, Option.map_some]
    cases p with
    | waits a =>
      left
      exact congrArg (fun stage => some (⟨x.items, stage⟩ : Writer String UInt32 UInt8)) (hstage _)
    | returns r =>
      have hafter : (x.state.receive session ⟨t, request, r⟩).stage
          (if t = session then none else awaitOf w.server session) =
            (x.state.receive session ⟨t, request, r⟩).stage (awaitOf w.server session) :=
        stage_congr fun hcreating => if_neg (creating_of_receive hcreating).2
      rcases stage_receive session ⟨t, request, r⟩ (awaitOf w.server session) hne
        with heq | heq
      · left
        exact congrArg (fun stage => some (⟨x.items, stage⟩ : Writer String UInt32 UInt8))
          (hafter.trans heq)
      · right
        refine ⟨_, rfl, ?_⟩
        exact congrArg (fun stage => some (⟨x.items, stage⟩ : Writer String UInt32 UInt8))
          (hafter.trans heq)

/-- What holds after a part of another call that leaves the files, the locks and the entries. -/
theorem Inv.other {action : Action} (hw : w.Inv (during w.server t request) next)
    (hshelf : w.shelf.Inv maxFileSize)
    (hruns : Runs w.server action t request activity next) (haction : action.KeepsRunning)
    (hrequest : ∀ entries nodeId, request ≠ .createAndLock entries nodeId)
    (hpool : s₁.blob.filePool = w.server.blob.filePool)
    (hlocked : s₁.blob.lockedFiles = w.server.blob.lockedFiles)
    (hmap : s₁.blob.map = w.server.blob.map)
    (hoffset : ∀ blob, p ≠ .returns (.offset blob))
    (hwaits : ∀ a, p = .waits a → Await.rereads a = false) (h : Part w.server t activity s₁ p) :
    w.shelf.Step maxFileSize (w.hear (s₁.after t request next p)
        (({ s₁ with nextCall := next } : Server).settle t request p).2).shelf ∧
      (w.hear (s₁.after t request next p)
        (({ s₁ with nextCall := next } : Server).settle t request p).2).Sound := by
  have hstep := shelf_of_other request next h (base_of_eq hpool hlocked hmap) ?_
  · refine ⟨hstep, hw.settle (hw.ids.part hruns h) ((Step.part hruns h).expected hw.expected)
      (hw.tracked.step hw.expected haction (.part hruns h)) h ?_ ?_ ?_ hwaits, hstep.inv hshelf⟩
    · rw [hlocked]
      exact hw.locks
    · exact fun blob hp => absurd hp (hoffset blob)
    · rw [hmap]
      exact hw.slices
  · rintro session x hx hcreating rfl
    have hthis := hw.matched.creating t x hx hcreating
    rw [during, if_pos rfl] at hthis
    exact hrequest _ _ (Option.some.inj hthis)

end Others

section Unlock

variable {s₁ : Server} {x : Session} {p : Progress} {session : CallId} {blob : BlobOffset}
  {position : ℕ}

theorem writer_of_session (hx : w.sessions[session]? = some x) : w.shelf.writer session =
    some ⟨x.items, x.state.stage (awaitOf w.server session)⟩ := by
  rw [shelf]
  dsimp only
  rw [hx, Option.map_some]

/-- A session that has written all its blobs holds the lock of its file. -/
theorem Sound.lock_of_writing (hw : w.Sound) (hx : w.sessions[session]? = some x)
    (hstate : x.state = .writing blob position []) :
    w.server.blob.lockedFiles[blob.fileId]? =
      some ⟨x.nodeId, keysOf (blobEntries x.blobs), session⟩ := by
  have hwriter := writer_of_session hx
  rw [hstate] at hwriter
  have hholder := hw.shelf.held session _ blob.fileId hwriter rfl
  obtain ⟨lock, hlock, hacquisition⟩ := Option.map_eq_some_iff.mp hholder
  obtain ⟨x', hx', hnode, hkeys⟩ := hw.inv.locks blob.fileId lock hlock
  rw [hacquisition] at hx'
  cases hx.symm.trans hx'
  obtain ⟨nodeId, keys, acquisition⟩ := lock
  dsimp only at hacquisition hnode hkeys
  rw [hlock, hacquisition, hnode, hkeys]

/-- Its keys are in the map. -/
theorem Sound.mem_map_of_writing (hw : w.Sound) (hx : w.sessions[session]? = some x)
    (hstate : x.state = .writing blob position []) :
    ∀ key ∈ keysOf (blobEntries x.blobs), key ∈ w.server.blob.map := by
  intro key hkey
  have hwriter := writer_of_session hx
  rw [hstate] at hwriter
  obtain ⟨-, hlisted, done, b, hcontents, hposition, hlimit, -⟩ := hw.shelf.writers session _ hwriter
  change contents x.items = done ++ [] at hcontents
  rw [List.append_nil] at hcontents
  rw [hposition, ← hcontents] at hlimit
  rw [← keys_items, ← keys_placesFrom blob.fileId blob.byteOffset.toNat] at hkey
  obtain ⟨e, he, rfl⟩ := List.mem_map.mp hkey
  obtain ⟨l, hl, -⟩ := Option.map_eq_some_iff.mp (hlisted hlimit e he)
  exact FiniteMap.mem_iff_getElem?.mpr ⟨l, hl⟩

/-- The stage of the session after the first part of its unlock. -/
def unlockStage : Progress → Stage UInt32 UInt8
  | .waits _ => .committed
  | .returns _ => .ended

/-- The first part of an unlock marks all keys, unless the reserved key is among them. -/
theorem marked_of_mem {b : BlobStorage} {fileId : UInt32} {keys : List String}
    (h : b.Marked fileId keys [] p) (hmem : ∀ key ∈ keys, key ∈ b.map) :
    (unlockStage p = .ended ∧ p = .returns .panicked) ∨
      unlockStage p = .committed ∧ b.markable keys = keys ∧
        ∃ toSetInRedis, p = .waits (.redis (.setWritten fileId toSetInRedis) none) := by
  cases h with
  | all items hkeys hitems htexts => exact .inr ⟨rfl, hkeys, _, rfl⟩
  | asks pre key rest items hkeys hpre hkey hnone hitems htexts =>
    have hthis := hmem key (by rw [hkeys]; exact List.mem_append_right _ List.mem_cons_self)
    obtain ⟨l, hl⟩ := FiniteMap.mem_iff_getElem?.mp hthis
    cases hnone.symm.trans hl
  | reserved hkey => exact .inl ⟨rfl, rfl⟩

/-- The writers after the first part of an unlock. -/
theorem writer_of_unlock (hx : w.sessions[session]? = some x)
    (hmatched : Matched w.sessions w.server.requestOf w.server.nextCall) {request : Request}
    {activity : Activity} (h : Part w.server w.server.nextCall activity s₁ p)
    (hp : p = .returns .panicked ∨ ∃ a, p = .waits a) (session' : CallId) :
    ((w.setSession session x (.unlocking blob w.server.nextCall)).hear
      (s₁.after w.server.nextCall request (w.server.nextCall + 1) p)
      (({ s₁ with nextCall := w.server.nextCall + 1 } : Server).settle w.server.nextCall
        request p).2).shelf.writer session' =
      if session = session' then some ⟨x.items, unlockStage p⟩ else w.shelf.writer session' := by
  have hlt := hmatched.known session x hx
  dsimp only [shelf]
  rw [getElem?_hear, hear, awaitOf_after h, setSession]
  dsimp only
  rw [FiniteMap.getElem?_insert]
  by_cases hsession : session = session'
  · subst hsession
    rw [if_pos rfl, if_pos rfl, if_neg hlt.ne']
    rcases hp with rfl | ⟨a, rfl⟩
    · dsimp only [settle, List.foldl_cons, List.foldl_nil, Option.map_some]
      simp [SessionState.receive, SessionState.stage, unlockStage, Session.items]
    · rfl
  rw [if_neg hsession, if_neg hsession]
  cases hx' : w.sessions[session']? with
  | none => rfl
  | some x' =>
    have hne : w.server.nextCall ≠ session' := (hmatched.known session' x' hx').ne'
    have hstate : (({ s₁ with nextCall := w.server.nextCall + 1 } : Server).settle
        w.server.nextCall request p).2.foldl (fun state e => state.receive session' e) x'.state =
          x'.state := by
      cases p with
      | waits a => rfl
      | returns r =>
        exact receive_eq (fun _ => hne) fun blob' call hcall =>
          (hmatched.unlocking session' x' hx' blob' call hcall).1.ne'
    rw [if_neg hne, Option.map_some, Option.map_some, hstate]
    rfl

/-- What the first part of an unlock does to the files, and what it leaves to do. -/
structure UnlockEffect (w : Store) (session : CallId) (x : Session) (blob : BlobOffset) (s₁ : Server)
    (p : Progress) : Prop where
  step : w.shelf.Step maxFileSize
    ((w.setSession session x (.unlocking blob w.server.nextCall)).hear
      (s₁.after w.server.nextCall (.createUnlock blob.fileId x.nodeId) (w.server.nextCall + 1) p)
      (({ s₁ with nextCall := w.server.nextCall + 1 } : Server).settle w.server.nextCall
        (.createUnlock blob.fileId x.nodeId) p).2).shelf
  locks : ∀ (fileId : UInt32) (lock : FileLock), s₁.blob.lockedFiles[fileId]? = some lock →
    w.server.blob.lockedFiles[fileId]? = some lock
  slices : ∀ (key : String) (l : LockWrapper), s₁.blob.map[key]? = some l → EntryOk key l
  offset : ∀ blob, p ≠ .returns (.offset blob)
  waits : ∀ a, p = .waits a → Await.rereads a = false

/-- The session gives its file back. -/
theorem Sound.unlockEffect (hw : w.Sound) (hx : w.sessions[session]? = some x)
    (hstate : x.state = .writing blob position [])
    (h : Part w.server w.server.nextCall (.start (.createUnlock blob.fileId x.nodeId)) s₁ p) :
    UnlockEffect w session x blob s₁ p := by
  have hwriter := writer_of_session hx
  rw [hstate] at hwriter
  have hlock := hw.lock_of_writing hx hstate
  have hmem := hw.mem_map_of_writing hx hstate
  have hpart := h
  cases h with
  | notLocked hnone => cases hnone.symm.trans hlock
  | wrongNode hlock' hnode =>
    cases hlock.symm.trans hlock'
    exact absurd rfl hnode
  | unlock hlock' hnode =>
    cases hlock.symm.trans hlock'
    have hmarked := marked_of_mem (BlobStorage.markKeys_marked (b := (w.server.removeLock
      blob.fileId).blob) blob.fileId (keysOf (blobEntries x.blobs)) []) hmem
    have hpool := BlobStorage.markKeys_filePool (b := (w.server.removeLock blob.fileId).blob)
      blob.fileId (keysOf (blobEntries x.blobs)) []
    have hlocked := BlobStorage.markKeys_lockedFiles (b := (w.server.removeLock blob.fileId).blob)
      blob.fileId (keysOf (blobEntries x.blobs)) []
    have hmap := BlobStorage.markKeys_map (b := (w.server.removeLock blob.fileId).blob)
      blob.fileId (keysOf (blobEntries x.blobs)) []
    have hsubset : ∀ k ∈ (w.server.removeLock blob.fileId).blob.markable
        (keysOf (blobEntries x.blobs)), k ∈ keys x.items := by
      intro k hk
      rw [keys_items]
      exact (List.takeWhile_prefix _).subset hk
    have hlegal : ∀ k ∈ (w.server.removeLock blob.fileId).blob.markable
        (keysOf (blobEntries x.blobs)), k ≠ filePoolKey := by
      intro k hk
      have hthis := List.mem_takeWhile_imp hk
      exact of_decide_eq_true (Bool.and_eq_true_iff.mp hthis).1
    dsimp only at hpart ⊢
    generalize (w.server.removeLock blob.fileId).blob.markKeys blob.fileId
      (keysOf (blobEntries x.blobs)) [] = marks at *
    generalize (w.server.removeLock blob.fileId).blob.markable (keysOf (blobEntries x.blobs)) = valid
      at *
    obtain ⟨b, p⟩ := marks
    dsimp only [withBlob] at hmarked hpool hlocked hmap hpart ⊢
    have hp : p = .returns .panicked ∨ ∃ a, p = .waits a := by
      rcases hmarked with ⟨-, hp⟩ | ⟨-, -, toSetInRedis, hp⟩
      · exact .inl hp
      · exact .inr ⟨_, hp⟩
    constructor
    case step =>
      have hgive : w.shelf.Step maxFileSize (((w.shelf.validate valid).setHolder blob.fileId
          none).setWriter session ⟨x.items, unlockStage p⟩) :=
        Shelf.Step.giveBack valid hwriter hsubset ?_
      · convert hgive using 1
        apply Shelf.ext
        case writer =>
          funext session'
          exact writer_of_unlock hx hw.inv.matched hpart hp session'
        case size =>
          funext fileId
          simp only [Store.shelf, hear, after_blob, hpool]
          rfl
        case bytes => rfl
        case holder =>
          funext fileId
          simp only [Store.shelf, hear, after_blob, hlocked, Shelf.setHolder, Shelf.setWriter]
          dsimp only [removeLock]
          rw [FiniteMap.getElem?_erase]
          split_ifs <;> rfl
        case index =>
          funext key
          simp only [Store.shelf, hear, after_blob, hmap, Shelf.setHolder, Shelf.setWriter, Shelf.validate]
          split_ifs
          · rw [Option.map_map, Option.map_map]
            rfl
          · rfl
      · rcases hmarked with ⟨hstage, -⟩ | ⟨hstage, hvalid, -⟩
        · exact .inl hstage
        · exact .inr ⟨hstage, hvalid.trans (keys_items x).symm⟩
    case locks =>
      intro fileId lock hlock''
      rw [hlocked] at hlock''
      change (w.server.blob.lockedFiles.erase blob.fileId)[fileId]? = some lock at hlock''
      rw [FiniteMap.getElem?_erase] at hlock''
      split_ifs at hlock''
      exact hlock''
    case slices =>
      intro key l hl
      rw [hmap] at hl
      split_ifs at hl with hvalid
      · obtain ⟨l', hl', rfl⟩ := Option.map_eq_some_iff.mp hl
        exact ⟨(hw.inv.slices key l' hl').1, fun _ => hlegal key hvalid⟩
      · exact hw.inv.slices key l hl
    case offset =>
      rintro blob' rfl
      rcases hp with hp | ⟨a, hp⟩ <;> cases hp
    case waits =>
      rintro a rfl
      rcases hmarked with ⟨-, hp⟩ | ⟨-, -, toSetInRedis, hp⟩ <;> cases hp
      rfl

end Unlock

section Moves

variable {requests : CallId → Option Request} {next : CallId} {x : Session} {session : CallId}
  {state : SessionState}

theorem getElem?_setSession (session' : CallId) : (w.setSession session x state).sessions[session']? =
    if session = session' then some { x with state } else w.sessions[session']? :=
  FiniteMap.getElem?_insert ..

theorem Matched.setSession (hw : Matched w.sessions requests next) (hx : w.sessions[session]? = some x)
    (hold : x.state ≠ .creating) (hnew : state ≠ .creating)
    (hunlocking : ∀ blob call, state = .unlocking blob call → call < next ∧
      ∀ entries nodeId, requests call ≠ some (.createAndLock entries nodeId)) :
    Matched (w.setSession session x state).sessions requests next := by
  have hcases : ∀ (session' : CallId) (x' : Session),
      (w.setSession session x state).sessions[session']? = some x' →
        (session = session' ∧ x' = { x with state }) ∨ w.sessions[session']? = some x' := by
    intro session' x' hx'
    rw [getElem?_setSession] at hx'
    split_ifs at hx' with hsession
    · exact .inl ⟨hsession, (Option.some.inj hx').symm⟩
    · exact .inr hx'
  constructor
  case known =>
    intro session' x' hx'
    rcases hcases session' x' hx' with ⟨rfl, -⟩ | hx'
    · exact hw.known session x hx
    · exact hw.known session' x' hx'
  case creating =>
    intro session' x' hx' hcreating
    rcases hcases session' x' hx' with ⟨-, rfl⟩ | hx'
    · exact absurd hcreating hnew
    · exact hw.creating session' x' hx' hcreating
  case creators =>
    intro t entries nodeId hrequest
    obtain ⟨x', hx', hcreating⟩ := hw.creators t entries nodeId hrequest
    refine ⟨x', ?_, hcreating⟩
    rw [getElem?_setSession, if_neg, hx']
    rintro rfl
    cases hx.symm.trans hx'
    exact hold hcreating
  case unlocking =>
    intro session' x' hx' blob call hstate
    rcases hcases session' x' hx' with ⟨-, rfl⟩ | hx'
    · exact hunlocking blob call hstate
    · exact hw.unlocking session' x' hx' blob call hstate

/-- A session goes on. -/
theorem Inv.setSession (hw : w.Inv requests next) (state : SessionState) (hx : w.sessions[session]? = some x)
    (hold : x.state ≠ .creating) (hnew : state ≠ .creating)
    (haccepted : state.accepted → x.state.accepted)
    (hunlocking : ∀ blob call, state = .unlocking blob call → call < next ∧
      ∀ entries nodeId, requests call ≠ some (.createAndLock entries nodeId))
    (hgranted : ∀ blob, state.granted = some blob → blob.fileName = blobName blob.fileId) :
    (w.setSession session x state).Inv requests next where
  ids := hw.ids
  expected := hw.expected
  tracked := hw.tracked
  matched := hw.matched.setSession hx hold hnew hunlocking
  locks := by
    intro fileId lock hlock
    obtain ⟨x', hx', hnode, hkeys⟩ := hw.locks fileId lock hlock
    rw [getElem?_setSession]
    split_ifs with hsession
    · rw [← hsession] at hx'
      cases hx.symm.trans hx'
      exact ⟨_, rfl, hnode, hkeys⟩
    · exact ⟨x', hx', hnode, hkeys⟩
  granted := by
    intro session' x' hx' blob hblob
    rw [getElem?_setSession] at hx'
    split_ifs at hx'
    · cases hx'
      exact hgranted blob hblob
    · exact hw.granted session' x' hx' blob hblob
  distinct := by
    intro session' x' hx' hstate
    rw [getElem?_setSession] at hx'
    split_ifs at hx'
    · cases hx'
      exact hw.distinct session x hx (haccepted hstate)
    · exact hw.distinct session' x' hx' hstate
  slices := hw.slices
  noRereads := hw.noRereads

/-- The files are not part of it. -/
theorem Inv.setFile (hw : w.Inv requests next) (fileName : String) (bytes : List UInt8) :
    (w.setFile fileName bytes).Inv requests next :=
  ⟨hw.ids, hw.expected, hw.tracked, hw.matched, hw.locks, hw.granted, hw.distinct, hw.slices,
    hw.noRereads⟩

/-- A call starts that is not a creation. -/
theorem Matched.start (hw : Matched w.sessions w.server.requestOf w.server.nextCall)
    (request : Request) (hrequest : ∀ entries nodeId, request ≠ .createAndLock entries nodeId) :
    Matched w.sessions (during w.server w.server.nextCall request) (w.server.nextCall + 1) := by
  constructor
  case known => exact fun session x hx => Nat.lt_succ_of_lt (hw.known session x hx)
  case creating =>
    intro session x hx hcreating
    rw [during, if_neg (hw.known session x hx).ne']
    exact hw.creating session x hx hcreating
  case creators =>
    intro t entries nodeId hthis
    rw [during] at hthis
    split_ifs at hthis
    · exact absurd (Option.some.inj hthis) (hrequest entries nodeId)
    · exact hw.creators t entries nodeId hthis
  case unlocking =>
    intro session x hx blob call hstate
    obtain ⟨hlt, hcall⟩ := hw.unlocking session x hx blob call hstate
    rw [during, if_neg hlt.ne']
    exact ⟨Nat.lt_succ_of_lt hlt, hcall⟩

theorem Inv.start (hw : w.Inv w.server.requestOf w.server.nextCall) (request : Request)
    (hrequest : ∀ entries nodeId, request ≠ .createAndLock entries nodeId) :
    w.Inv (during w.server w.server.nextCall request) (w.server.nextCall + 1) where
  ids := hw.ids
  expected := hw.expected
  tracked := hw.tracked
  matched := hw.matched.start request hrequest
  locks := hw.locks
  granted := hw.granted
  distinct := hw.distinct
  slices := hw.slices
  noRereads := hw.noRereads

/-- The requests stay the same while a call in flight goes on. -/
theorem during_resume {t : CallId} {c : Call} (hcall : w.server.calls[t]? = some c) :
    during w.server t c.request = w.server.requestOf := by
  funext t'
  rw [during]
  split_ifs with ht
  · rw [← ht, requestOf, hcall]
    rfl
  · rfl

/-- A call goes on. -/
theorem Inv.resume (hw : w.Inv w.server.requestOf w.server.nextCall) {t : CallId} {c : Call}
    (hcall : w.server.calls[t]? = some c) :
    w.Inv (during w.server t c.request) w.server.nextCall := by
  rwa [during_resume hcall]

theorem blobName_inj {fileId fileId' : UInt32} : blobName fileId = blobName fileId' ↔
    fileId = fileId' := by
  constructor
  · intro h
    have hdata := congrArg String.toList h
    simp only [blobName, FileInfo.new, String.toList_append] at hdata
    have hrepr := List.append_cancel_left (List.append_cancel_right hdata)
    exact UInt32.toNat_inj.mp (Nat.repr_inj.mp (String.toList_inj.mp hrepr))
  · rintro rfl
    rfl

/-- A session that goes on is a writer that goes on. -/
theorem shelf_setSession (hstate : ∀ a a', state.stage a = state.stage a') :
    (w.setSession session x state).shelf =
      w.shelf.setWriter session ⟨x.items, state.stage none⟩ := by
  apply Shelf.ext
  case writer =>
    funext session'
    dsimp only [shelf, Shelf.setWriter]
    rw [getElem?_setSession]
    split_ifs
    · exact congrArg (fun stage => some (⟨x.items, stage⟩ : Writer String UInt32 UInt8))
        (hstate _ none)
    · rfl
  all_goals rfl

theorem shelf_setFile (fileId : UInt32) (bytes : List UInt8) :
    (w.setFile (blobName fileId) bytes).shelf = w.shelf.setBytes fileId bytes := by
  apply Shelf.ext
  case bytes =>
    funext fileId'
    dsimp only [shelf, setFile, Shelf.setBytes]
    rw [FiniteMap.getElem?_insert]
    simp only [blobName_inj]
  all_goals rfl

/-- A session gives up. -/
theorem Sound.fail (hw : w.Sound) (hx : w.sessions[session]? = some x)
    (hold : x.state ≠ .creating) :
    w.shelf.Step maxFileSize (w.setSession session x .failed).shelf ∧
      (w.setSession session x .failed).Sound := by
  have hstep : w.shelf.Step maxFileSize (w.setSession session x .failed).shelf := by
    rw [shelf_setSession fun _ _ => rfl]
    exact Shelf.Step.giveUp (writer_of_session hx)
  have hinv := hw.inv.setSession .failed hx hold (by rintro ⟨⟩) (by rintro ⟨⟩)
    (by rintro _ _ ⟨⟩) (by rintro _ ⟨⟩)
  exact ⟨hstep, hinv, hstep.inv hw.shelf⟩

/-- A session opens its file. -/
theorem Sound.openFile (hw : w.Sound) (h : w.openFile session = some w') :
    w.shelf.Step maxFileSize w'.shelf ∧ w'.Sound := by
  obtain ⟨x, hx, hrest⟩ := Option.bind_eq_some_iff.mp h
  split at hrest
  · rename_i blob hstate
    have hold : x.state ≠ .creating := by
      rw [hstate]
      rintro ⟨⟩
    have haccepted (state : SessionState) (_ : state.accepted) : x.state.accepted := by
      rw [hstate]
      rfl
    split at hrest
    · cases hrest
      exact hw.fail hx hold
    · cases hrest
      exact hw.fail hx hold
    · have hname := hw.inv.granted session x hx blob (by rw [hstate]; rfl)
      have hwriter := writer_of_session hx
      rw [hstate] at hwriter
      have hstart := (hw.shelf.writers session _ hwriter).1.start
      dsimp only at hrest
      rw [if_pos hstart] at hrest
      cases hrest
      have hinv := (hw.inv.setFile blob.fileName ((w.files[blob.fileName]?).getD [])).setSession
        (.writing blob blob.byteOffset.toNat (x.blobs.map (·.bytes))) hx hold
        (by rintro ⟨⟩) (haccepted _) (by rintro _ _ ⟨⟩) (by rintro _ ⟨⟩; exact hname)
      have hstep : w.shelf.Step maxFileSize
          ((w.setFile blob.fileName ((w.files[blob.fileName]?).getD [])).setSession session x
            (.writing blob blob.byteOffset.toNat (x.blobs.map (·.bytes)))).shelf := by
        have hopen := Shelf.Step.openFile hwriter hstart
        rw [shelf_setSession fun _ _ => rfl, hname, shelf_setFile]
        have hcontents : (x.blobs.map (·.bytes)).flatten = contents x.items := by
          simp [contents, Session.items, Function.comp_def]
        rw [SessionState.stage, hcontents]
        exact hopen
      exact ⟨hstep, hinv, hstep.inv hw.shelf⟩
  · cases hrest

/-- A session writes. -/
theorem Sound.write (hw : w.Sound) {n : ℕ} (h : w.write session n = some w') :
    Shelf.Steps maxFileSize w.shelf w'.shelf ∧ w'.Sound := by
  obtain ⟨x, hx, hrest⟩ := Option.bind_eq_some_iff.mp h
  split at hrest
  · rename_i blob position bytes rest hstate
    have hold : x.state ≠ .creating := by
      rw [hstate]
      rintro ⟨⟩
    have haccepted (state : SessionState) (_ : state.accepted) : x.state.accepted := by
      rw [hstate]
      rfl
    have hname := hw.inv.granted session x hx blob (by rw [hstate]; rfl)
    have hwriter := writer_of_session hx
    rw [hstate] at hwriter
    split_ifs at hrest with hempty
    · -- an empty blob
      cases hrest
      have hbytes : bytes = [] := List.isEmpty_iff.mp hempty
      have hinv := hw.inv.setSession (.writing blob position rest) hx hold
        (by rintro ⟨⟩) (haccepted _) (by rintro _ _ ⟨⟩) (by rintro _ ⟨⟩; exact hname)
      have hshelf : (w.setSession session x (.writing blob position rest)).shelf = w.shelf := by
        rw [shelf_setSession fun _ _ => rfl]
        apply Shelf.setWriter_self
        rw [hwriter, hbytes]
        rfl
      exact ⟨hshelf ▸ .refl, hinv, hshelf ▸ hw.shelf⟩
    · obtain ⟨file, hfile, hrest⟩ := Option.bind_eq_some_iff.mp hrest
      dsimp only at hrest
      split_ifs at hrest with hlimit
      · cases hrest
        have hinv := (hw.inv.setFile blob.fileName (overwrite file position (bytes.take n))).setSession
          (.writing blob (position + (bytes.take n).length) (bytes.drop n :: rest)) hx hold
          (by rintro ⟨⟩) (haccepted _) (by rintro _ _ ⟨⟩) (by rintro _ ⟨⟩; exact hname)
        have hstep : w.shelf.Step maxFileSize
            ((w.setFile blob.fileName (overwrite file position (bytes.take n))).setSession session x
              (.writing blob (position + (bytes.take n).length) (bytes.drop n :: rest))).shelf := by
          rw [shelf_setSession fun _ _ => rfl, hname, shelf_setFile]
          apply Shelf.Step.write (bytes.take n) _ _ _ hlimit
          · rw [hwriter]
            simp [SessionState.stage, ← List.append_assoc]
          · rw [hname] at hfile
            exact hfile
        exact ⟨.single hstep, hinv, hstep.inv hw.shelf⟩
      · cases hrest
        obtain ⟨hstep, hsound⟩ := hw.fail hx hold
        exact ⟨.single hstep, hsound⟩
  · cases hrest

end Moves

end Store

end NpmFollower.BlobIdxClient
