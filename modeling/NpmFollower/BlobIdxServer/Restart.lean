import NpmFollower.BlobIdxServer.KeySync

/-! # Restarts

A server that is started again on what Redis holds, between two calls, answers
every lookup as the old one would have, and has the same files.
-/

namespace NpmFollower.BlobIdxServer

open Std PostgresDb Runs

/-- The request does not reserve the key of the file pool. -/
def Request.Unreserved : Request → Prop
  | .createAndLock entries _ => filePoolKey ∉ keysOf entries
  | _ => True

def Action.Unreserved : Action → Prop
  | .call r => r.Unreserved
  | _ => True

instance : (a : Action) → Decidable a.Unreserved
  | .call (.createAndLock entries _) => inferInstanceAs (Decidable (filePoolKey ∉ keysOf entries))
  | .call (.createUnlock _ _) | .call (.keepAliveLock _) | .call (.lookup _) => isTrue trivial
  | .execute _ | .resume _ _ | .tick _ | .receive _ | .restart _ => isTrue trivial

namespace Server

/-- A lookup without other calls in between. -/
def lookupAlone (s : Server) (key : String) : Option Response :=
  match s.step (.call (.lookup key)) with
  | some (_, [e]) => some e.response
  | some (s₁, _) => do
    let (s₂, _) ← s₁.step (.execute s.nextCall)
    let (_, es) ← s₂.step (.resume s.nextCall 0)
    es.head?.map (·.response)
  | none => none

/-- The answer of a lookup to a map over Redis. -/
def lookupAnswer (b : BlobStorage) (r : Redis) (key : String) : Response :=
  if key = filePoolKey then .error .prohibitedKey
  else
    match b.map[key]? with
    | some l => BlobStorage.lookupResponse l
    | none =>
      match r[key]? with
      | none => .error (.doesNotExist key)
      | some (.string v) =>
        match LockWrapper.deserialize v with
        | some l => BlobStorage.lookupResponse l
        | none => .panicked
      | some (.hash _) => .panicked

/-- Calls one after the other that do not reserve the key of the file pool. -/
def PlainSequence (s : Server) (a : Action) : Prop := s.Alone a ∧ a.Unreserved

instance (s : Server) (a : Action) : Decidable (s.PlainSequence a) := by
  unfold PlainSequence
  infer_instance

variable {s : Server} {key : String}

theorem lookupAlone_eq (s : Server) (key : String) :
    s.lookupAlone key = some (lookupAnswer s.blob s.redis key) := by
  rw [lookupAlone, step_call, lookupAnswer, start, BlobStorage.startLookup]
  split_ifs with hkey
  · rfl
  cases hl : s.blob.map[key]? with
  | some l => rfl
  | none =>
    dsimp only [settle]
    generalize hstarted : ({ s with
      nextCall := s.nextCall + 1
      calls := s.calls.insert s.nextCall ⟨.lookup key, .redis (.lookup key) none⟩ } : Server) = s₁
    have hcall : s₁.calls[s.nextCall]? = some ⟨.lookup key, .redis (.lookup key) none⟩ := by
      rw [← hstarted]
      exact ExtTreeMap.getElem?_insert_self
    have hblob : s₁.blob = s.blob := by rw [← hstarted]
    have hredis : s₁.redis = s.redis := by rw [← hstarted]
    have hanswer : (s₁.executed s.nextCall (.lookup key) (.lookup key)).calls[s.nextCall]? =
        some ⟨.lookup key, .redis (.lookup key) (some (s.redis.execute (.get key)).2)⟩ := by
      rw [executed, ← hredis]
      exact ExtTreeMap.getElem?_insert_self
    have hload : ∀ reply, (s₁.executed s.nextCall (.lookup key) (.lookup key)).resume s.nextCall 0
        (.redis (.lookup key) (some reply)) =
          some ((s₁.executed s.nextCall (.lookup key) (.lookup key)).resumeRedis reply
            (.lookup key)) := fun _ => rfl
    rw [step_execute hcall, Option.bind_eq_bind, Option.bind_some,
      step_resume hanswer (hload _)]
    have hafter : (s₁.executed s.nextCall (.lookup key) (.lookup key)).blob = s.blob := hblob
    rw [Redis.execute]
    cases s.redis[key]? with
    | none => rfl
    | some value =>
      cases value with
      | hash fields => rfl
      | string v =>
        dsimp only
        rw [resumeRedis, load]
        cases LockWrapper.deserialize v with
        | none => rfl
        | some l =>
          rw [Option.map_some, hafter]
          simp [withBlob, BlobStorage.startLookup, hkey, settle]

theorem acceptsLegal_of_requests (hexpected : s.Expected)
    (h : ∀ (t : CallId) (c : Call), s.calls[t]? = some c → c.request.Unreserved) :
    s.AcceptsLegal := by
  intro t entries nodeId hat
  obtain ⟨⟨request, await⟩, hcall, hawait⟩ := Option.map_eq_some_iff.mp hat
  have hexpects := Request.expects_deaf.mpr (hexpected t _ hcall)
  have hunreserved := h t _ hcall
  dsimp only at hawait hexpects hunreserved
  rw [hawait] at hexpects
  cases hexpects
  exact hunreserved

/-- What a sequence of calls that do not reserve the key of the file pool keeps. -/
structure PlainInv (s : Server) : Prop where
  inv : s.KeyInv
  requests : ∀ (t : CallId) (c : Call), s.calls[t]? = some c → c.request.Unreserved

theorem PlainInv.step (hs : s.PlainInv) {a : Action} (h : s.PlainSequence a) {s' : Server}
    {es : List Event} (hstep : s.step a = some (s', es)) : s'.PlainInv := by
  have hrequests : ∀ (t : CallId) (c : Call), s'.calls[t]? = some c → c.request.Unreserved := by
    intro t c hcall
    rcases (step_of_eq hstep).request_cases hcall with ⟨c₀, hcall₀, heq⟩ | rfl
    · exact heq ▸ hs.requests t c₀ hcall₀
    · exact h.2
  have hexpected := (step_of_eq hstep).expected hs.inv.pool.alone.expected
  exact ⟨hs.inv.step h.1 hstep (acceptsLegal_of_requests hexpected hrequests), hrequests⟩

theorem plainInv_boot {config : BlobStorageConfig} (h : boot config ∅ 0 = some s) : s.PlainInv := by
  refine ⟨keyInv_boot h, ?_⟩
  obtain ⟨b, -, rfl⟩ := Option.map_eq_some_iff.mp h
  simp

theorem KeysSynced.lookupAnswer_eq {b b' : BlobStorage} {r : Redis} (h : KeysSynced b r)
    (hmap : b'.map = ∅) (key : String) : lookupAnswer b' r key = lookupAnswer b r key := by
  rw [lookupAnswer, lookupAnswer]
  split_ifs with hkey
  · rfl
  rw [hmap, ExtTreeMap.getElem?_empty]
  cases hl : b.map[key]? with
  | none => rfl
  | some l =>
    obtain ⟨-, text, htext, hread⟩ := h.stored key l hl
    simp only [htext, hread]
    rfl

/-- A restart after a sequence of calls changes neither the answers of lookups nor the files. -/
theorem restart_transparent {config : BlobStorageConfig} {s₀ : Server} {es : List Event}
    (hboot : boot config ∅ 0 = some s₀) (hrun : Run Server.step PlainSequence s₀ es s)
    (hrest : s.RedisIdle none) (config' : BlobStorageConfig) :
    ∃ s', s.step (.restart config') = some (s', []) ∧
      (∀ key, s'.lookupAlone key = s.lookupAlone key) ∧
      (∀ id : UInt32, s'.blob.filePool[id]? = s.blob.filePool[id]?) ∧
      ∀ entries nodeId id needsCreation, (s'.blob.reserve entries nodeId id needsCreation).2 =
        (s.blob.reserve entries nodeId id needsCreation).2 := by
  have hs : s.PlainInv := hrun.invariant (plainInv_boot hboot) fun hs h hstep => hs.step h hstep
  have hsettled : s.Flushed s.redis := .settled fun t k hat => by cases hrest.eq hat rfl
  have hkeys := hs.inv.keys _ hsettled
  have hfiles := hs.inv.pool.files _ hsettled
  obtain ⟨b, hinit⟩ := exists_init hfiles.readable hkeys.calm config'
  have hpool : ∀ id : UInt32, b.filePool[id]? = s.blob.filePool[id]? := hfiles.init_eq hinit
  refine ⟨⟨b, s.redis, ∅, ∅, s.nextCall⟩, ?_, ?_, hpool, ?_⟩
  · rw [step, boot, hinit]
    rfl
  · intro key
    rw [lookupAlone_eq, lookupAlone_eq, hkeys.lookupAnswer_eq (init_forgets hinit).1]
  · intro entries nodeId id needsCreation
    rw [BlobStorage.reserve, BlobStorage.reserve, hpool]
    cases s.blob.filePool[id]? <;> rfl

/-- A creation of two keys and its unlock, and a creation of one that is not unlocked. -/
def storedAndReserved : List Action :=
  [.call (.createAndLock [⟨"a", 2⟩, ⟨"b", 3⟩] "node"), .execute 0, .resume 0 0, .execute 0,
    .resume 0 0, .resume 0 0, .execute 0, .resume 0 0, .execute 0, .resume 0 0, .execute 0,
    .resume 0 0, .call (.createUnlock 0 "node"), .execute 1, .resume 1 0,
    .call (.createAndLock [⟨"c", 4⟩] "node"), .execute 2, .resume 2 0, .resume 2 0, .execute 2,
    .resume 2 0, .execute 2, .resume 2 0]

theorem restart_transparent_storedAndReserved : ∃ s₀ es s s', boot ⟨1⟩ ∅ 0 = some s₀ ∧
    Run Server.step PlainSequence s₀ es s ∧ s.step (.restart ⟨1⟩) = some (s', []) ∧
      s.lookupAlone "b" = some (.slice ⟨0, "blob_0.bin", 2, 3⟩) ∧
        s'.lookupAlone "b" = s.lookupAlone "b" ∧
          s'.blob.filePool[(0 : UInt32)]? = s.blob.filePool[(0 : UInt32)]? := by
  obtain ⟨s₀, hboot, hexec⟩ := Option.bind_eq_some_iff.mp
    (show ((boot ⟨1⟩ ∅ 0).bind fun s₀ => (exec Server.step PlainSequence s₀ storedAndReserved).map
      fun r => (decide (r.1.RedisIdle none), r.1.lookupAlone "b")) =
        some (true, some (.slice ⟨0, "blob_0.bin", 2, 3⟩)) by decide +kernel)
  obtain ⟨s, es, hrun, hend⟩ := exists_run_of_exec hexec
  simp only [Prod.mk.injEq, decide_eq_true_eq] at hend
  obtain ⟨s', hrestart, hlookup, hpool, -⟩ := restart_transparent hboot hrun hend.1 ⟨1⟩
  exact ⟨s₀, es, s, s', hboot, hrun, hrestart, hend.2, hlookup "b", hpool 0⟩

end Server

end NpmFollower.BlobIdxServer
