import NpmFollower.BlobIdxClient.SessionSteps

/-! # Reading what was stored

Every step of the store is made of steps of the writers. So every stored key is
read back with the bytes of its blob, at every later time.
-/

namespace NpmFollower.BlobIdxClient

open Std BlobIdxServer Server Runs SharedFiles

namespace Store

variable {w w' : Store}

section Steps

variable {es : List Event} {session : CallId} {x : Session} {key : String}

theorem hear_nil (s₁ : Server) : w.hear s₁ [] = { w with server := s₁ } := by
  have hsessions : (w.hear s₁ []).sessions = w.sessions := by
    apply ExtTreeMap.ext_getElem?
    intro session
    rw [getElem?_hear]
    simp
  change { w with server := s₁, sessions := (w.hear s₁ []).sessions } = { w with server := s₁ }
  rw [hsessions]

theorem exists_of_serve {a : Action} (h : w.serve a = some (w', es)) :
    ∃ s', w.server.step a = some (s', es) ∧ w' = w.hear s' es := by
  obtain ⟨⟨s', es'⟩, hstep, heq⟩ := Option.map_eq_some_iff.mp h
  cases heq
  exact ⟨s', hstep, rfl⟩

/-- A step of the server that concerns no session. -/
theorem Sound.silent {s₁ : Server} (hw : w.Sound) (hids : s₁.IdsInv) (hexpected : s₁.Expected)
    (htracked : s₁.Tracked) (hblob : s₁.blob = w.server.blob)
    (hrequests : s₁.requestOf = w.server.requestOf) (hnext : s₁.nextCall = w.server.nextCall)
    (hwaiting : ∀ t a, s₁.At t a → Await.rereads a = false)
    (hstage : ∀ session (state : SessionState), state.stage (awaitOf s₁ session) =
      state.stage (awaitOf w.server session)) :
    (w.hear s₁ []).shelf = w.shelf ∧ (w.hear s₁ []).Sound := by
  rw [hear_nil]
  have hshelf : ({ w with server := s₁ } : Store).shelf = w.shelf := by
    simp only [Store.shelf, hblob, hstage]
  refine ⟨hshelf, ⟨hids, hexpected, htracked, ?_, ?_, hw.inv.granted, hw.inv.distinct, ?_, hwaiting⟩, ?_⟩
  · rw [hrequests, hnext]
    exact hw.inv.matched
  · rw [hblob]
    exact hw.inv.locks
  · rw [hblob]
    exact hw.inv.slices
  · rw [hshelf]
    exact hw.shelf

theorem stage_reply (k : Continuation) (reply reply' : Option Reply) (state : SessionState) :
    state.stage (some (Await.redis k reply)) = state.stage (some (Await.redis k reply')) := by
  cases state with
  | creating => cases k <;> rfl
  | _ => rfl

/-- Redis executes a command. -/
theorem Sound.execute (hw : w.Sound) {t : CallId} {request : Request} {k : Continuation}
    (hcall : w.server.calls[t]? = some ⟨request, .redis k none⟩) :
    (w.hear (w.server.executed t request k) []).shelf = w.shelf ∧
      (w.hear (w.server.executed t request k) []).Sound := by
  have hstep := Step.execute hcall
  apply hw.silent (hw.inv.ids.execute hcall) (hstep.expected hw.inv.expected)
    (hw.inv.tracked.step hw.inv.expected (a := .execute t) trivial hstep) rfl
    (funext (requestOf_executed hcall)) rfl
  · apply forall_at_execute fun t' a _ => hw.inv.noRereads t' a
    have hrereads := hw.inv.noRereads t _ (at_of_call hcall)
    cases k <;> exact hrereads
  · intro session state
    rw [awaitOf, executed, FiniteMap.getElem?_insert]
    split_ifs with ht
    · rw [← ht, awaitOf, hcall]
      exact stage_reply k _ none state
    · rfl

/-- A stored key has a valid entry. -/
theorem Sound.exists_entry (hw : w.Sound) (hx : w.sessions[session]? = some x)
    (hstored : x.state.isStored) (hkey : key ∈ x.blobs.map (·.key)) :
    ∃ l : LockWrapper, w.server.blob.map[key]? = some l ∧ l.written = true := by
  have hwriter := writer_of_session hx
  have hkeys : key ∈ keys x.items := by
    rwa [keys, Session.items, List.map_map]
  obtain ⟨blobs, nodeId, state⟩ := x
  cases state with
  | stored blob =>
    obtain ⟨p, hp⟩ := hw.shelf.writers session _ hwriter key hkeys
    obtain ⟨l, hl, heq⟩ := Option.map_eq_some_iff.mp hp
    exact ⟨l, hl, congrArg Prod.snd heq⟩
  | _ => cases hstored

/-- A call other than a creation goes on. -/
theorem Sound.resumeOther (hw : w.Sound) {t : CallId} {c : Call} {choice : UInt32} {s₁ : Server}
    {p : Progress} (hcall : w.server.calls[t]? = some c)
    (hrequest : ∀ entries nodeId, c.request ≠ .createAndLock entries nodeId)
    (h : Part w.server t (.resume c.await choice) s₁ p) :
    w.shelf.Step maxFileSize (w.hear (s₁.after t c.request w.server.nextCall p)
        (({ s₁ with nextCall := w.server.nextCall } : Server).settle t c.request p).2).shelf ∧
      (w.hear (s₁.after t c.request w.server.nextCall p)
        (({ s₁ with nextCall := w.server.nextCall } : Server).settle t c.request p).2).Sound := by
  have hruns : Runs w.server (.resume t choice) t c.request (.resume c.await choice)
      w.server.nextCall := .resume hcall
  have hof := hruns.of hw.inv.expected
  have hrereads := hw.inv.noRereads t _ (at_of_call hcall)
  have hother := (hw.inv.resume hcall).other hw.shelf hruns trivial hrequest (h := h)
  obtain ⟨request, await⟩ := c
  dsimp only at hrequest h hof hrereads hother ⊢
  cases h with
  | broken hreply => exact hother rfl rfl rfl (by rintro _ ⟨⟩) (by rintro _ ⟨⟩)
  | unlocked hinfo =>
    apply hother _ _ _ (by rintro _ ⟨⟩) (by rintro _ ⟨⟩)
    all_goals rw [abortCleaner_eq]; rfl
  | unlockedNone hnone =>
    apply hother _ _ _ (by rintro _ ⟨⟩) (by rintro _ ⟨⟩)
    all_goals rw [abortCleaner_eq]
  | keepAliveExpired hnone => exact hother rfl rfl rfl (by rintro _ ⟨⟩) (by rintro _ ⟨⟩)
  | keepAliveSent hcleaner => exact hother rfl rfl rfl (by rintro _ ⟨⟩) (by rintro _ ⟨⟩)
  | markLoaded => cases hrereads
  | lookupAbsent => cases hrereads
  | lookupLoaded => cases hrereads
  | _ =>
    cases hof with
    | resume hexpects =>
      cases hexpects
      exact absurd rfl (hrequest _ _)

/-- A session starts, and waits for its creation. -/
def addSession (w : Store) (blobs : List Blob) (nodeId : String) : Store :=
  { w with sessions := w.sessions.insert w.server.nextCall ⟨blobs, nodeId, .creating⟩ }

theorem getElem?_addSession (blobs : List Blob) (nodeId : String) (session : CallId) :
    (w.addSession blobs nodeId).sessions[session]? =
      if w.server.nextCall = session then some ⟨blobs, nodeId, .creating⟩
      else w.sessions[session]? :=
  FiniteMap.getElem?_insert ..

theorem Matched.begin (hw : Matched w.sessions w.server.requestOf w.server.nextCall)
    (blobs : List Blob) (nodeId : String) :
    Matched (w.addSession blobs nodeId).sessions
      (during w.server w.server.nextCall (.createAndLock (blobEntries blobs) nodeId))
        (w.server.nextCall + 1) := by
  constructor
  case known =>
    intro session x hx
    rw [getElem?_addSession] at hx
    split_ifs at hx with hsession
    · rw [← hsession]
      exact Nat.lt_succ_self _
    · exact Nat.lt_succ_of_lt (hw.known session x hx)
  case creating =>
    intro session x hx hcreating
    rw [getElem?_addSession] at hx
    rw [during]
    split_ifs at hx ⊢
    · cases hx
      rfl
    · exact hw.creating session x hx hcreating
  case creators =>
    intro t entries nodeId' hrequest
    rw [during] at hrequest
    rw [getElem?_addSession]
    split_ifs at hrequest ⊢
    · exact ⟨_, rfl, rfl⟩
    · exact hw.creators t entries nodeId' hrequest
  case unlocking =>
    intro session x hx blob call hstate
    rw [getElem?_addSession] at hx
    split_ifs at hx
    · cases hx
      cases hstate
    · obtain ⟨hlt, hcall⟩ := hw.unlocking session x hx blob call hstate
      rw [during, if_neg hlt.ne']
      exact ⟨Nat.lt_succ_of_lt hlt, hcall⟩

theorem Sound.begin (hw : w.Sound) {blobs : List Blob} (nodeId : String)
    (hfresh : ∀ e ∈ w.sessions.toList, ∀ b ∈ blobs, b.key ∉ e.2.blobs.map fun b => b.key) :
    w.shelf.Step maxFileSize (w.addSession blobs nodeId).shelf ∧
      (w.addSession blobs nodeId).Inv
        (during w.server w.server.nextCall (.createAndLock (blobEntries blobs) nodeId))
          (w.server.nextCall + 1) := by
  have hget := w.getElem?_addSession blobs nodeId
  have hnew : w.sessions[w.server.nextCall]? = none := by
    apply Option.eq_none_iff_forall_ne_some.mpr
    intro x hx
    exact lt_irrefl _ (hw.inv.matched.known _ x hx)
  have hold {session : CallId} {x : Session} (hx : w.sessions[session]? = some x) :
      w.server.nextCall ≠ session := (hw.inv.matched.known session x hx).ne'
  constructor
  · have hbegin : w.shelf.Step maxFileSize _ := Shelf.Step.begin w.server.nextCall
      (Session.items ⟨blobs, nodeId, .creating⟩) ?_ ?_
    · convert hbegin using 1
      apply Shelf.ext
      case writer =>
        funext session
        dsimp only [Store.shelf, Shelf.setWriter]
        rw [hget]
        split_ifs with hsession
        · have hawait : awaitOf (w.addSession blobs nodeId).server session = none := by
            apply Option.eq_none_iff_forall_ne_some.mpr
            intro a hat
            have hlt := hw.inv.ids.fresh session a hat
            exact absurd hlt (by rw [hsession]; exact lt_irrefl _)
          rw [Option.map_some, hawait]
          rfl
        · rfl
      all_goals rfl
    · dsimp only [Store.shelf]
      rw [hnew, Option.map_none]
    · intro j wr hj k hk hk'
      obtain ⟨x, hx, rfl⟩ := Option.map_eq_some_iff.mp hj
      simp only [keys, Session.items, List.map_map, List.mem_map] at hk hk'
      obtain ⟨b, hb, rfl⟩ := hk
      obtain ⟨b', hb', hkey⟩ := hk'
      apply hfresh (j, x) (ExtTreeMap.mem_toList_iff_getElem?_eq_some.mpr hx) b hb
      exact List.mem_map.mpr ⟨b', hb', hkey⟩
  · constructor
    case ids => exact hw.inv.ids
    case expected => exact hw.inv.expected
    case tracked => exact hw.inv.tracked
    case slices => exact hw.inv.slices
    case noRereads => exact hw.inv.noRereads
    case locks =>
      intro fileId lock hlock
      obtain ⟨x, hx, hnode, hkeys⟩ := hw.inv.locks fileId lock hlock
      refine ⟨x, ?_, hnode, hkeys⟩
      rw [hget, if_neg (hold hx), hx]
    case granted =>
      intro session x hx blob hblob
      rw [hget] at hx
      split_ifs at hx
      · cases hx
        cases hblob
      · exact hw.inv.granted session x hx blob hblob
    case distinct =>
      intro session x hx haccepted
      rw [hget] at hx
      split_ifs at hx
      · cases hx
        cases haccepted
      · exact hw.inv.distinct session x hx haccepted
    case matched => exact hw.inv.matched.begin blobs nodeId

/-- A written key is looked up. -/
theorem Sound.lookup (hw : w.Sound) {l : LockWrapper} (hl : w.server.blob.map[key]? = some l)
    (hwritten : l.written = true) (h : w.step (.lookup key) = some (w', es)) :
    w.shelf.Step maxFileSize w'.shelf ∧ w'.Sound := by
  obtain ⟨s', hstep, rfl⟩ := exists_of_serve h
  cases step_of_eq hstep with
  | part hruns part =>
    cases hruns
    have hother := (hw.inv.start (.lookup key) (by rintro _ _ ⟨⟩)).other
      hw.shelf (Runs.start _) trivial (by rintro _ _ ⟨⟩) (h := part)
    have hreturns : ∃ r, w.server.blob.startLookup key = .returns r ∧ ∀ blob, r ≠ .offset blob := by
      rw [BlobStorage.startLookup, hl]
      split_ifs
      · exact ⟨_, rfl, by rintro _ ⟨⟩⟩
      · exact ⟨_, rfl, by rw [BlobStorage.lookupResponse, if_pos hwritten]; rintro _ ⟨⟩⟩
    obtain ⟨r, hr, hoffset⟩ := hreturns
    cases part
    rw [hr] at hother ⊢
    obtain ⟨hshelf, hsound⟩ := hother rfl rfl rfl
      (fun blob hp => hoffset blob (Progress.returns.inj hp)) (by rintro _ ⟨⟩)
    exact ⟨hshelf, hsound⟩

/-- Every step of the store is made of steps of the writers. -/
theorem Sound.step (hw : w.Sound) {m : Move} (ha : w.Apart m) (h : w.step m = some (w', es)) :
    Shelf.Steps maxFileSize w.shelf w'.shelf ∧ w'.Sound := by
  cases m with
  | store blobs nodeId =>
    obtain ⟨hbegin, hinv⟩ := hw.begin nodeId ha
    obtain ⟨s', hstep, rfl⟩ := exists_of_serve h
    cases step_of_eq hstep with
    | part hruns part =>
      cases hruns
      have hawait : awaitOf w.server w.server.nextCall = none := by
        apply Option.eq_none_iff_forall_ne_some.mpr
        intro a hat
        exact lt_irrefl _ (hw.inv.ids.fresh _ a hat)
      obtain ⟨hsteps, hsound⟩ := Inv.creation (x := ⟨blobs, nodeId, .creating⟩) hinv
        (hbegin.inv hw.shelf) ExtTreeMap.getElem?_insert_self rfl (Runs.start _) trivial hawait
          (by rintro _ _ ⟨⟩) part
      exact ⟨(Relation.ReflTransGen.single hbegin).trans hsteps, hsound⟩
  | openFile session =>
    obtain ⟨w'', hopen, heq⟩ := Option.map_eq_some_iff.mp h
    cases heq
    obtain ⟨hstep, hsound⟩ := hw.openFile hopen
    exact ⟨.single hstep, hsound⟩
  | write session n =>
    obtain ⟨w'', hwrite, heq⟩ := Option.map_eq_some_iff.mp h
    cases heq
    exact hw.write hwrite
  | unlock session =>
    obtain ⟨x, hx, hrest⟩ := Option.bind_eq_some_iff.mp h
    split at hrest
    · rename_i blob position hstate
      obtain ⟨s', hstep, rfl⟩ := exists_of_serve hrest
      cases step_of_eq hstep with
      | part hruns part =>
        cases hruns
        have heffect := hw.unlockEffect hx hstate part
        have hstart := hw.inv.start (.createUnlock blob.fileId x.nodeId) (by rintro _ _ ⟨⟩)
        have hinv := hstart.setSession (.unlocking blob w.server.nextCall) hx
          (by rw [hstate]; rintro ⟨⟩) (by rintro ⟨⟩) (fun _ => by rw [hstate]; rfl) ?_
          (by rintro _ ⟨⟩)
        · have hruns := Runs.start (s := w.server) (.createUnlock blob.fileId x.nodeId)
          refine ⟨.single heffect.step, hinv.settle (hw.inv.ids.part hruns part)
            ((Step.part hruns part).expected hw.inv.expected)
            (hw.inv.tracked.step hw.inv.expected (a := .call _) trivial (.part hruns part)) part ?_
            (fun blob' hp => absurd hp (heffect.offset blob')) heffect.slices heffect.waits,
            heffect.step.inv hw.shelf⟩
          exact fun fileId lock hlock => hinv.locks fileId lock (heffect.locks fileId lock hlock)
        · rintro _ _ ⟨⟩
          refine ⟨Nat.lt_succ_self _, fun entries nodeId heq => ?_⟩
          rw [during, if_pos rfl] at heq
          cases heq
    · cases hrest
  | keepAlive fileId =>
    obtain ⟨s', hstep, rfl⟩ := exists_of_serve h
    cases step_of_eq hstep with
    | part hruns part =>
      cases hruns
      have hother := (hw.inv.start (.keepAliveLock fileId) (by rintro _ _ ⟨⟩)).other
        hw.shelf (Runs.start _) trivial (by rintro _ _ ⟨⟩) (h := part)
      obtain ⟨hshelf, hsound⟩ := hother (by cases part <;> rfl) (by cases part <;> rfl)
        (by cases part <;> rfl) (by rintro _ rfl; cases part) (by rintro _ rfl; cases part; rfl)
      exact ⟨.single hshelf, hsound⟩
  | lookup key =>
    obtain ⟨⟨session, x⟩, hmem, hstored, hkey⟩ := ha
    obtain ⟨l, hl, hwritten⟩ :=
      hw.exists_entry (ExtTreeMap.mem_toList_iff_getElem?_eq_some.mp hmem) hstored hkey
    obtain ⟨hstep, hsound⟩ := hw.lookup hl hwritten h
    exact ⟨.single hstep, hsound⟩
  | serve a =>
    cases a with
    | call request => cases h
    | execute t =>
      obtain ⟨s', hstep, rfl⟩ := exists_of_serve h
      cases step_of_eq hstep with
      | part hruns part => cases hruns
      | execute hcall =>
        obtain ⟨hshelf, hsound⟩ := hw.execute hcall
        exact ⟨hshelf ▸ .refl, hsound⟩
    | resume t choice =>
      obtain ⟨s', hstep, rfl⟩ := exists_of_serve h
      cases step_of_eq hstep with
      | part hruns part =>
        cases hruns with
        | resume hcall =>
          rename_i c
          by_cases hcreation : ∃ entries nodeId, c.request = .createAndLock entries nodeId
          · obtain ⟨entries, nodeId, hrequest⟩ := hcreation
            have hrequestOf : w.server.requestOf t = some (.createAndLock entries nodeId) := by
              rw [requestOf, hcall, Option.map_some, hrequest]
            obtain ⟨x, hx, hcreating⟩ := hw.inv.matched.creators t entries nodeId hrequestOf
            have hmine := hw.inv.matched.creating t x hx hcreating
            rw [hrequestOf, ← hrequest] at hmine
            have heq := Option.some.inj hmine
            have hinv := hw.inv.resume hcall
            have hruns : Runs w.server (.resume t choice) t c.request (.resume c.await choice)
                w.server.nextCall := .resume hcall
            rw [heq] at hinv hruns ⊢
            exact hinv.creation hw.shelf hx hcreating hruns trivial (by rw [awaitOf, hcall]; rfl)
              (by rintro _ _ ⟨⟩; exact ha c hcall) part
          · obtain ⟨hstep', hsound⟩ := hw.resumeOther hcall
              (fun entries nodeId heq => hcreation ⟨entries, nodeId, heq⟩) part
            exact ⟨.single hstep', hsound⟩
    | tick cleaner =>
      obtain ⟨s', hstep, rfl⟩ := exists_of_serve h
      cases step_of_eq hstep with
      | part hruns part => cases hruns
      | expire hcleaner hlock => cases (ha _ hcleaner).symm.trans hlock
      | stop hcleaner hlock =>
        have hstop := Step.stop hcleaner hlock
        obtain ⟨hshelf, hsound⟩ := hw.silent (hw.inv.ids.step (a := .tick cleaner) trivial hstep)
          (hstop.expected hw.inv.expected) (hw.inv.tracked.step hw.inv.expected (a := .tick cleaner)
            trivial hstop) rfl rfl rfl hw.inv.noRereads fun _ _ => rfl
        exact ⟨hshelf ▸ .refl, hsound⟩
    | receive cleaner =>
      obtain ⟨s', hstep, rfl⟩ := exists_of_serve h
      cases step_of_eq hstep with
      | part hruns part => cases hruns
      | receive hcleaner =>
        have hreceive := Step.receive hcleaner
        obtain ⟨hshelf, hsound⟩ := hw.silent (hw.inv.ids.step (a := .receive cleaner) trivial hstep)
          (hreceive.expected hw.inv.expected) (hw.inv.tracked.step hw.inv.expected
            (a := .receive cleaner) trivial hreceive) rfl rfl rfl hw.inv.noRereads fun _ _ => rfl
        exact ⟨hshelf ▸ .refl, hsound⟩
    | restart config => cases ha

end Steps

section Reads

variable {config : BlobStorageConfig} {w₀ w₁ w₂ : Store} {es es' : List Event} {session : CallId}
  {x : Session} {b : Blob} {key : String}

theorem sound_start (h : start config = some w) : w.Sound := by
  obtain ⟨s, hboot, rfl⟩ := Option.map_eq_some_iff.mp h
  have hids := idsInv_boot hboot
  have htracked := tracked_boot hboot
  have hwaiting : ∀ t a, ¬s.At t a := fun t a => not_at_boot hboot
  have hexpected := expected_boot hboot
  obtain ⟨blob, hinit, rfl⟩ := Option.map_eq_some_iff.mp hboot
  have hempty : (∅ : Redis)[filePoolKey]? = none := ExtTreeMap.getElem?_empty
  rw [BlobStorage.init, hempty] at hinit
  cases hinit
  have hshelf : (⟨fun _ => none, fun _ => none, fun _ => none, fun _ => none, fun _ => none⟩ :
      Shelf CallId String UInt32 UInt8).Inv maxFileSize :=
    Shelf.inv_empty (fun _ => none) (fun _ => none) (by rintro _ _ ⟨⟩)
  constructor
  case shelf =>
    convert hshelf using 1
    apply Shelf.ext <;> funext <;> simp [shelf]
  case inv =>
    refine ⟨hids, hexpected, htracked, ⟨?_, ?_, ?_, ?_⟩, ?_, ?_, ?_, ?_, ?_⟩
    all_goals simp [requestOf]
    exact fun t a hat => absurd hat (hwaiting t a)

theorem Sound.run (hw : w.Sound) (hrun : Run Store.step Apart w es w') :
    Shelf.Steps maxFileSize w.shelf w'.shelf ∧ w'.Sound := by
  induction hrun with
  | start => exact ⟨.refl, hw⟩
  | next _ cond taken ih =>
    obtain ⟨hsteps, hsound⟩ := ih.2.step cond taken
    exact ⟨ih.1.trans hsteps, hsound⟩

theorem step_lookup {l : LockWrapper} (hkey : key ≠ filePoolKey)
    (hl : w.server.blob.map[key]? = some l) (hwritten : l.written = true) :
    ∃ w', w.step (.lookup key) = some (w', [⟨w.server.nextCall, .lookup key, .slice l.slice⟩]) := by
  have hreturns : w.server.blob.startLookup key = .returns (.slice l.slice) := by
    rw [BlobStorage.startLookup, if_neg hkey, hl]
    exact congrArg Progress.returns (if_pos hwritten)
  rw [Store.step, serve, step_call, Server.start, hreturns]
  exact ⟨_, rfl⟩

/-- From when a session has stored its blobs on, each of them is found under its key, and what was
found is read back whenever it is read. -/
theorem stored_reads (hstart : start config = some w₀) (hrun : Run Store.step Apart w₀ es w)
    (hx : w.sessions[session]? = some x) (hstored : x.state.isStored) (hb : b ∈ x.blobs)
    (hlater : Run Store.step Apart w es' w₁) :
    ∃ w₂ slice, w₁.step (.lookup b.key) =
        some (w₂, [⟨w₁.server.nextCall, .lookup b.key, .slice slice⟩]) ∧
      ∀ es₃ w₃, Run Store.step Apart w₂ es₃ w₃ → w₃.readSlice slice = some b.bytes := by
  have hw := ((sound_start hstart).run hrun).2
  obtain ⟨l, hl, hwritten⟩ := hw.exists_entry hx hstored (List.mem_map_of_mem hb)
  have hkeys : (keys x.items).Nodup := by
    rw [keys_items]
    apply hw.inv.distinct session x hx
    cases hstate : x.state with
    | stored blob => rfl
    | _ => simp [hstate, SessionState.isStored] at hstored
  -- the entry stays, and so do the items of the session
  have hindex : w.shelf.index b.key = some (placeOf l.slice, true) := by
    dsimp only [shelf]
    rw [hl, Option.map_some, hwritten]
  obtain ⟨hsteps₁, hw₁⟩ := hw.run hlater
  have hindex₁ := Shelf.Steps.index_valid hsteps₁ hw.shelf hindex
  obtain ⟨l₁, hl₁, heq⟩ := Option.map_eq_some_iff.mp hindex₁
  have hwritten₁ : l₁.written = true := congrArg Prod.snd heq
  have hplace : placeOf l₁.slice = placeOf l.slice := congrArg Prod.fst heq
  obtain ⟨hname, hkey⟩ := hw₁.inv.slices b.key l₁ hl₁
  obtain ⟨w₂, hlookup⟩ := step_lookup (hkey hwritten₁) hl₁ hwritten₁
  obtain ⟨hstep₂, hw₂⟩ := hw₁.lookup hl₁ hwritten₁ hlookup
  refine ⟨w₂, l₁.slice, hlookup, fun es₃ w₃ hrun₃ => ?_⟩
  obtain ⟨hsteps₃, hw₃⟩ := hw₂.run hrun₃
  have hsteps : Shelf.Steps maxFileSize w.shelf w₃.shelf := (hsteps₁.tail hstep₂).trans hsteps₃
  have hindex₃ := Shelf.Steps.index_valid hsteps hw.shelf hindex
  obtain ⟨writer, hwriter, hitems⟩ := Shelf.Steps.writer_items hsteps (writer_of_session hx)
  rw [← hplace] at hindex₃
  obtain ⟨file, hfile, hread⟩ := hw₃.shelf.readExact hwriter (by rw [hitems]; exact hkeys)
    (by rw [hitems]; exact List.mem_map_of_mem hb) hindex₃
  rw [readSlice, hname, show w₃.files[blobName l₁.slice.fileId]? = some file from hfile]
  exact hread

/-- A session that stores a blob of three bytes, which takes two calls. -/
def storing (key : String) (bytes : List UInt8) (session unlock : CallId) (created : Bool) :
    List Move :=
  [.store [⟨key, bytes⟩] "node", .serve (.execute session), .serve (.resume session 0),
    .serve (.resume session 0)] ++
  (if created then [.serve (.execute session), .serve (.resume session 0)] else []) ++
  [.serve (.execute session), .serve (.resume session 0), .serve (.execute session),
    .serve (.resume session 0), .openFile session, .write session 2, .write session 2,
    .write session 1, .unlock session, .serve (.execute unlock), .serve (.resume unlock 0)]

theorem stored_reads_twoSessions : ∃ w₀ es w es' w₁ w₂ slice, start ⟨1⟩ = some w₀ ∧
    Run Store.step Apart w₀ es w ∧ Run Store.step Apart w es' w₁ ∧
      w₁.step (.lookup "a") = some (w₂, [⟨w₁.server.nextCall, .lookup "a", .slice slice⟩]) ∧
        w₂.readSlice slice = some [1, 2, 3] := by
  obtain ⟨w₀, hstart, hfirst⟩ := Option.bind_eq_some_iff.mp
    (show ((start ⟨1⟩).bind fun w₀ =>
      (exec Store.step Apart w₀ (storing "a" [1, 2, 3] 0 1 true)).bind fun r =>
        (exec Store.step Apart r.1 (storing "b" [4, 5, 6] 2 3 false)).map fun _ =>
          r.1.sessions[0]?) = some (some ⟨[⟨"a", [1, 2, 3]⟩], "node",
            .stored ⟨0, "blob_0.bin", 0, true⟩⟩) by decide +kernel)
  obtain ⟨⟨w, es⟩, hw, hsecond⟩ := Option.bind_eq_some_iff.mp hfirst
  obtain ⟨w₁, es', hlater, hx⟩ := exists_run_of_exec hsecond
  have hrun := run_of_exec hw
  obtain ⟨w₂, slice, hlookup, hread⟩ := stored_reads (b := ⟨"a", [1, 2, 3]⟩) hstart hrun hx rfl
    List.mem_cons_self hlater
  exact ⟨w₀, es, w, es', w₁, w₂, slice, hstart, hrun, hlater, hlookup, hread [] w₂ .start⟩

end Reads

end Store

end NpmFollower.BlobIdxClient
