import NpmFollower.BlobIdxServer.Parts

/-! # What the calls wait for

Where a call waits is decided by its request, and a creation that is past its
checks has distinct keys. The calls in flight always wait where their requests
may.
-/

namespace NpmFollower.BlobIdxServer

open Std PostgresDb

/-- A call with this request may wait there. -/
inductive Request.Expects : Request → Await → Prop where
  | checkKey {reply : Option Reply} :
      Expects (.createAndLock entries nodeId) (.redis (.checkKey entries nodeId key rest) reply)
  | fileLock (hkeys : (keysOf entries).Nodup) :
      Expects (.createAndLock entries nodeId) (.fileLock entries nodeId)
  | unlockNotify {notified : Bool} (hkeys : (keysOf entries).Nodup) :
      Expects (.createAndLock entries nodeId) (.unlockNotify entries nodeId fileId notified)
  | addFile {info : FileInfo} {reply : Option Reply} (hkeys : (keysOf entries).Nodup) :
      Expects (.createAndLock entries nodeId) (.redis (.addFile entries nodeId fileId info) reply)
  | setSize {needsCreation : Bool} {info : FileInfo} {reply : Option Reply}
      (hkeys : (keysOf entries).Nodup) :
      Expects (.createAndLock entries nodeId)
        (.redis (.setSize entries nodeId fileId needsCreation byteOffset info) reply)
  | setSlices {offset : BlobOffset} {reply : Option Reply} {info : FileInfo}
      (hkeys : (keysOf entries).Nodup) (hname : info.fileName = offset.fileName)
      (htexts : toSetInRedis =
        (BlobStorage.wrappersFrom entries nodeId offset.fileId offset.byteOffset info).map
          fun e => (e.1, e.2.serialize)) :
      Expects (.createAndLock entries nodeId) (.redis (.setSlices offset toSetInRedis) reply)
  | markKey {reply : Option Reply} :
      Expects (.createUnlock fileId nodeId) (.redis (.markKey fileId key rest toSetInRedis) reply)
  | setWritten {reply : Option Reply} :
      Expects (.createUnlock fileId nodeId) (.redis (.setWritten fileId toSetInRedis) reply)
  | keepAlive : Expects (.keepAliveLock fileId) (.keepAlive cleaner)
  | lookup {reply : Option Reply} : Expects (.lookup key) (.redis (.lookup key) reply)

theorem Request.expects_deaf {request : Request} {a : Await} :
    request.Expects a.deaf ↔ request.Expects a := by
  constructor
  · intro h
    cases a <;> cases h <;> constructor <;> assumption
  · intro h
    cases h <;> constructor <;> assumption

/-- Redis may have answered since. -/
theorem Request.Expects.answered {request : Request} {k : Continuation} {reply : Option Reply}
    (h : request.Expects (.redis k reply)) (reply' : Option Reply) :
    request.Expects (.redis k reply') := by
  cases h <;> constructor <;> assumption

namespace Server

variable {s s₁ : Server} {t : CallId} {request : Request} {activity : Activity} {p : Progress}

/-- The activity is one of a call with this request. -/
inductive Activity.Of (request : Request) : Activity → Prop where
  | start : Of request (.start request)
  | resume {a : Await} {choice : UInt32} (h : request.Expects a) : Of request (.resume a choice)

theorem expects_checked {b : BlobStorage} {entries : List BlobEntry} {nodeId : String}
    {keys : List String} (h : b.Checked entries nodeId keys p) :
    ∀ a, p = .waits a → (Request.createAndLock entries nodeId).Expects a := by
  cases h <;> rintro _ ⟨⟩ <;> constructor
  assumption

theorem expects_marked {b : BlobStorage} {fileId : UInt32} {keys : List String}
    {toSet : List (String × Value)} (h : b.Marked fileId keys toSet p) (nodeId : String) :
    ∀ a, p = .waits a → (Request.createUnlock fileId nodeId).Expects a := by
  cases h <;> rintro _ ⟨⟩ <;> constructor

theorem expects_startLookup (b : BlobStorage) (key : String) :
    ∀ a, b.startLookup key = .waits a → (Request.lookup key).Expects a := by
  intro a ha
  rw [BlobStorage.startLookup] at ha
  split_ifs at ha
  split at ha <;> cases ha
  exact .lookup

theorem Part.expects (h : Part s t activity s₁ p) (hof : activity.Of request) :
    ∀ a, p = .waits a → request.Expects a := by
  cases h with
  | check hp => cases hof; exact expects_checked hp
  | checkAbsent hp => rcases hof with _ | ⟨⟨⟩⟩; exact expects_checked hp
  | checkLoaded hl hp => rcases hof with _ | ⟨⟨⟩⟩; exact expects_checked hp
  | publish needsCreation byteOffset info =>
    cases hof with
    | resume hexpects =>
      cases hexpects with
      | setSize hkeys =>
        rw [BlobStorage.publish_eq]
        rintro _ ⟨⟩
        exact .setSlices hkeys rfl rfl
  | unlock hlock hnode => cases hof; exact expects_marked (BlobStorage.markKeys_marked _ _ _) _
  | markLoaded hl =>
    rcases hof with _ | ⟨⟨⟩⟩
    exact expects_marked (BlobStorage.markKeys_marked _ _ _) _
  | lookup => cases hof; exact expects_startLookup _ _
  | lookupLoaded hl => rcases hof with _ | ⟨⟨⟩⟩; exact expects_startLookup _ _
  | keepAliveSend hlock hcleaner => cases hof; rintro _ ⟨⟩; exact .keepAlive
  | _ => rcases hof with _ | ⟨⟨⟩⟩ <;> rintro _ ⟨⟩ <;> constructor <;> assumption

/-- All calls in flight wait where their requests may. -/
def Expected (s : Server) : Prop :=
  ∀ (t : CallId) (c : Call), s.calls[t]? = some c → c.request.Expects c.await

theorem Runs.of {action : Action} {next : CallId} (h : Runs s action t request activity next)
    (hs : s.Expected) : activity.Of request := by
  cases h with
  | start request => exact .start
  | resume hcall => exact .resume (hs _ _ hcall)

theorem expected_notifyWaiters (hs : s.Expected) (fileId : UInt32) :
    (s.notifyWaiters fileId).Expected := by
  intro t c hcall
  rw [notifyWaiters, ExtTreeMap.getElem?_map] at hcall
  obtain ⟨c₀, hcall₀, rfl⟩ := Option.map_eq_some_iff.mp hcall
  have hexpects := hs t c₀ hcall₀
  rw [← Request.expects_deaf, ← deaf_notify fileId, Request.expects_deaf] at hexpects
  obtain ⟨request, await⟩ := c₀
  cases await <;> exact hexpects

theorem Part.expected (h : Part s t activity s₁ p) (hs : s.Expected) : s₁.Expected := by
  cases h with
  | unlocked => rw [abortCleaner_eq]; exact expected_notifyWaiters hs _
  | unlockedNone => rw [abortCleaner_eq]; exact hs
  | _ => exact hs

theorem Step.expected {action : Action} {s' : Server} {es : List Event} (h : Step s action s' es)
    (hs : s.Expected) : s'.Expected := by
  cases h with
  | part hruns part =>
    rename_i t request activity next s₁ p
    have hexpects := part.expects (hruns.of hs)
    intro t' c hcall
    cases p with
    | waits a =>
      rw [after, settle, FiniteMap.getElem?_insert] at hcall
      split_ifs at hcall with ht
      · cases hcall
        exact hexpects a rfl
      · exact part.expected hs t' c hcall
    | returns r =>
      rw [after, settle, FiniteMap.getElem?_erase] at hcall
      split_ifs at hcall with ht
      exact part.expected hs t' c hcall
  | execute hcall =>
    intro t' c hcall'
    rw [executed, FiniteMap.getElem?_insert] at hcall'
    split_ifs at hcall' with ht
    · cases hcall'
      exact (hs _ _ hcall).answered _
    · exact hs t' c hcall'
  | expire => exact expected_notifyWaiters hs _
  | stop => exact hs
  | receive => exact hs
  | restart hboot =>
    obtain ⟨b, -, rfl⟩ := Option.map_eq_some_iff.mp hboot
    intro t c hcall
    simp at hcall

theorem request_notifyWaiters {fileId : UInt32} {c : Call}
    (hcall : (s.notifyWaiters fileId).calls[t]? = some c) :
    ∃ c₀, s.calls[t]? = some c₀ ∧ c₀.request = c.request := by
  rw [notifyWaiters, ExtTreeMap.getElem?_map] at hcall
  obtain ⟨c₀, hcall₀, rfl⟩ := Option.map_eq_some_iff.mp hcall
  refine ⟨c₀, hcall₀, ?_⟩
  obtain ⟨request, await⟩ := c₀
  cases await <;> rfl

theorem Part.request_eq (h : Part s t activity s₁ p) {t' : CallId} {c : Call}
    (hcall : s₁.calls[t']? = some c) : ∃ c₀, s.calls[t']? = some c₀ ∧ c₀.request = c.request := by
  cases h with
  | unlocked =>
    rw [abortCleaner_eq] at hcall
    exact request_notifyWaiters hcall
  | unlockedNone =>
    rw [abortCleaner_eq] at hcall
    exact ⟨c, hcall, rfl⟩
  | _ => exact ⟨c, hcall, rfl⟩

/-- The request of a call in flight is the one that it has started with. -/
theorem Step.request_cases {action : Action} {s' : Server} {es : List Event} (h : Step s action s' es)
    {c : Call} (hcall : s'.calls[t]? = some c) :
    (∃ c₀, s.calls[t]? = some c₀ ∧ c₀.request = c.request) ∨ action = .call c.request := by
  cases h with
  | part hruns part =>
    rename_i t' request activity next s₁ p
    cases p with
    | waits a =>
      rw [after, settle, FiniteMap.getElem?_insert] at hcall
      split_ifs at hcall with ht
      · cases hcall
        subst ht
        cases hruns with
        | start => exact .inr rfl
        | resume hcall₀ => exact .inl ⟨_, hcall₀, rfl⟩
      · exact .inl (part.request_eq hcall)
    | returns r =>
      rw [after, settle, FiniteMap.getElem?_erase] at hcall
      split_ifs at hcall with ht
      exact .inl (part.request_eq hcall)
  | execute hcall₀ =>
    rw [executed, FiniteMap.getElem?_insert] at hcall
    split_ifs at hcall with ht
    · cases hcall
      subst ht
      exact .inl ⟨_, hcall₀, rfl⟩
    · exact .inl ⟨c, hcall, rfl⟩
  | expire => exact .inl (request_notifyWaiters hcall)
  | stop => exact .inl ⟨c, hcall, rfl⟩
  | receive => exact .inl ⟨c, hcall, rfl⟩
  | restart hboot =>
    obtain ⟨b, -, rfl⟩ := Option.map_eq_some_iff.mp hboot
    simp at hcall

theorem expected_boot {config : BlobStorageConfig} {redis : Redis} {n : CallId}
    (h : boot config redis n = some s) : s.Expected := by
  obtain ⟨b, -, rfl⟩ := Option.map_eq_some_iff.mp h
  intro t c hcall
  simp at hcall

/-- The request of a call in flight. -/
def requestOf (s : Server) (t : CallId) : Option Request := (s.calls[t]?).map (·.request)

variable {next : CallId}

theorem requestOf_notifyWaiters (fileId : UInt32) (t' : CallId) :
    (s.notifyWaiters fileId).requestOf t' = s.requestOf t' := by
  have hrequest : (fun c : Call => c.request) ∘ Call.notify fileId = fun c => c.request := by
    funext c
    obtain ⟨request, await⟩ := c
    cases await <;> rfl
  simp only [requestOf, notifyWaiters, ExtTreeMap.getElem?_map, Option.map_map, hrequest]

theorem Part.requestOf (h : Part s t activity s₁ p) (t' : CallId) :
    s₁.requestOf t' = s.requestOf t' := by
  cases h with
  | unlocked =>
    rw [requestOf_notifyWaiters, abortCleaner_eq]
    rfl
  | unlockedNone =>
    rw [abortCleaner_eq]
    rfl
  | _ => rfl

theorem requestOf_after (h : Part s t activity s₁ p) (t' : CallId) :
    (s₁.after t request next p).requestOf t' =
      if t = t' then match p with
        | .waits _ => some request
        | .returns _ => none
      else s.requestOf t' := by
  rw [← h.requestOf t']
  cases p with
  | waits a =>
    rw [Server.requestOf, after, settle, FiniteMap.getElem?_insert]
    split_ifs <;> rfl
  | returns r =>
    rw [Server.requestOf, after, settle, FiniteMap.getElem?_erase]
    split_ifs <;> rfl

theorem requestOf_executed {k : Continuation} (hcall : s.calls[t]? = some ⟨request, .redis k none⟩)
    (t' : CallId) : (s.executed t request k).requestOf t' = s.requestOf t' := by
  rw [Server.requestOf, Server.requestOf, executed, FiniteMap.getElem?_insert]
  split_ifs with ht
  · rw [← ht, hcall]
    rfl
  · rfl

end Server

end NpmFollower.BlobIdxServer
