import NpmFollower.Library.Runs
import NpmFollower.BlobIdxServer.Requests

/-! # Written keys

An entry of the map that is written stays as it is, unless a call that has looked
before the entry was written puts something else in its place: a creation its new
slice, or any call an older entry that Redis has answered with.
-/

namespace NpmFollower.BlobIdxServer

open Std PostgresDb Runs

/-- The map has a written entry with this slice. -/
def BlobStorage.WrittenAt (b : BlobStorage) (key : String) (slice : BlobStorageSlice) : Prop :=
  key ≠ filePoolKey ∧ ∃ l, b.map[key]? = some l ∧ l.written = true ∧ l.slice = slice

/-- The keys that the call puts into the map with new slices when it goes on. -/
def Await.publishes : Await → List String
  | .redis (.setSize entries _ _ _ _ _) _ => keysOf entries
  | _ => []

/-- The entry that the call loads into the map when it goes on. -/
def Await.loads : Await → Option (String × LockWrapper)
  | .redis (.checkKey _ _ key _) (some (.text (some v))) =>
    (LockWrapper.deserialize v).map fun l => (key, l)
  | .redis (.markKey _ key _ _) (some (.text (some v))) =>
    (LockWrapper.deserialize v).map fun l => (key, l)
  | .redis (.lookup key) (some (.text (some v))) =>
    (LockWrapper.deserialize v).map fun l => (key, l)
  | _ => none

/-- The key of a lookup that waits for Redis. -/
def Await.looksUp : Await → Option String
  | .redis (.lookup key) _ => some key
  | _ => none

/-- A lookup that has found a slice is followed by lookups that find the same. -/
def Immutable (es : List Event) : Prop :=
  es.Pairwise fun e e' => ∀ key slice, e.request = .lookup key → e.response = .slice slice →
    e'.request = .lookup key → e'.response = .slice slice

namespace Server

/-- Where the map has a written entry, a call that goes on does not put another one there, and a
lookup has got that entry. -/
def WritesKept (s : Server) : Action → Prop
  | .resume t _ => ∀ c, s.calls[t]? = some c → ∀ key slice, s.blob.WrittenAt key slice →
    key ∉ c.await.publishes ∧
      (∀ l : LockWrapper, c.await.loads = some (key, l) → l.written = true ∧ l.slice = slice) ∧
      (c.await.looksUp = some key → ∃ l, c.await.loads = some (key, l))
  | .restart _ => False
  | _ => True

variable {s s₁ : Server} {t : CallId} {request : Request} {activity : Activity} {p : Progress}
  {action : Action} {next : CallId} {key : String} {slice : BlobStorageSlice}

theorem writtenAt_markKeys {b : BlobStorage} (h : b.WrittenAt key slice) (fileId : UInt32)
    (keys : List String) (toSet : List (String × Value)) :
    (b.markKeys fileId keys toSet).1.WrittenAt key slice := by
  obtain ⟨hkey, l, hl, hwritten, hslice⟩ := h
  refine ⟨hkey, ?_⟩
  rw [BlobStorage.markKeys_map, hl]
  split_ifs
  · exact ⟨l.marked, rfl, rfl, hslice⟩
  · exact ⟨l, rfl, hwritten, hslice⟩

theorem writtenAt_insertKey {b : BlobStorage} (h : b.WrittenAt key slice) {key' : String}
    {l : LockWrapper} (hl : key' = key → l.written = true ∧ l.slice = slice) :
    (b.insertKey key' l).WrittenAt key slice := by
  obtain ⟨hkey, l₀, hl₀, hwritten⟩ := h
  refine ⟨hkey, ?_⟩
  rw [BlobStorage.insertKey_map, FiniteMap.getElem?_insert]
  split_ifs with heq
  · exact ⟨l, rfl, hl heq⟩
  · exact ⟨l₀, hl₀, hwritten⟩

theorem writtenAt_publish {b : BlobStorage} (h : b.WrittenAt key slice) {entries : List BlobEntry}
    (hkey : key ∉ keysOf entries) (nodeId : String) (fileId : UInt32) (needsCreation : Bool)
    (byteOffset : UInt64) (info : FileInfo) :
    (b.publish entries nodeId fileId needsCreation byteOffset info).1.WrittenAt key slice := by
  obtain ⟨hne, l, hl, hwritten⟩ := h
  rw [BlobStorage.publish_eq]
  refine ⟨hne, l, ?_, hwritten⟩
  rw [← hl]
  apply FiniteMap.getElem?_foldl_insert_of_not_mem
  intro e he heq
  apply hkey
  rw [← BlobStorage.keys_wrappersFrom entries nodeId fileId byteOffset info, ← heq]
  exact List.mem_map_of_mem he

/-- A written entry stays, if the call does not put another one there. -/
theorem Part.writtenAt (h : Part s t activity s₁ p) (hwritten : s.blob.WrittenAt key slice)
    (hkept : ∀ a choice, activity = .resume a choice → key ∉ a.publishes ∧
      ∀ l : LockWrapper, a.loads = some (key, l) → l.written = true ∧ l.slice = slice) :
    s₁.blob.WrittenAt key slice := by
  cases h with
  | checkLoaded hl hp =>
    apply writtenAt_insertKey hwritten
    rintro rfl
    exact (hkept _ _ rfl).2 _ (by simp [Await.loads, hl])
  | lookupLoaded hl =>
    apply writtenAt_insertKey hwritten
    rintro rfl
    exact (hkept _ _ rfl).2 _ (by simp [Await.loads, hl])
  | publish needsCreation byteOffset info =>
    exact writtenAt_publish hwritten (hkept _ _ rfl).1 _ _ needsCreation byteOffset info
  | unlock hlock hnode =>
    rename_i fileId nodeId lock
    have hremoved : (s.removeLock fileId).blob.WrittenAt key slice := hwritten
    exact writtenAt_markKeys hremoved _ _ _
  | markLoaded hl =>
    apply writtenAt_markKeys
    apply writtenAt_insertKey hwritten
    rintro rfl
    exact (hkept _ _ rfl).2 _ (by simp [Await.loads, hl])
  | unlocked hinfo => rw [abortCleaner_eq]; exact hwritten
  | unlockedNone hnone => rw [abortCleaner_eq]; exact hwritten
  | _ => exact hwritten

theorem startLookup_of_written {b : BlobStorage} (h : b.WrittenAt key slice) :
    b.startLookup key = .returns (.slice slice) := by
  obtain ⟨hkey, l, hl, hwritten, rfl⟩ := h
  simp [BlobStorage.startLookup, hkey, hl, BlobStorage.lookupResponse, hwritten]

theorem writtenAt_of_startLookup {b : BlobStorage}
    (h : b.startLookup key = .returns (.slice slice)) : b.WrittenAt key slice := by
  rw [BlobStorage.startLookup] at h
  split_ifs at h with hkey
  · cases h
  cases hl : b.map[key]? with
  | none =>
    rw [hl] at h
    cases h
  | some l =>
    rw [hl] at h
    have hresponse := Progress.returns.inj h
    rw [BlobStorage.lookupResponse] at hresponse
    split_ifs at hresponse with hwritten
    cases hresponse
    exact ⟨hkey, l, hl, hwritten, rfl⟩

/-- A lookup answers with a slice that the map then has. -/
theorem Part.writtenAt_of_lookup (h : Part s t activity s₁ (.returns (.slice slice)))
    (hof : activity.Of (.lookup key)) : s₁.blob.WrittenAt key slice := by
  generalize hp : Progress.returns (.slice slice) = p at h
  cases hof with
  | start =>
    cases h
    exact writtenAt_of_startLookup hp.symm
  | resume hexpects =>
    cases hexpects
    cases h with
    | lookupLoaded hl => exact writtenAt_of_startLookup hp.symm
    | _ => cases hp

/-- A lookup of a written entry answers with its slice, if it has got that entry. -/
theorem Part.lookup_of_writtenAt {r : Response} (h : Part s t activity s₁ (.returns r))
    (hof : activity.Of (.lookup key)) (hwritten : s.blob.WrittenAt key slice)
    (hkept : ∀ a choice, activity = .resume a choice →
      (∀ l : LockWrapper, a.loads = some (key, l) → l.written = true ∧ l.slice = slice) ∧
        ∃ l, a.loads = some (key, l)) : r = .slice slice := by
  generalize hp : Progress.returns r = p at h
  cases hof with
  | start =>
    cases h
    rw [startLookup_of_written hwritten] at hp
    exact Progress.returns.inj hp
  | resume hexpects =>
    obtain ⟨hsame, l, hloads⟩ := hkept _ _ rfl
    cases hexpects
    cases h with
    | lookupLoaded hl =>
      rw [startLookup_of_written (writtenAt_insertKey hwritten fun _ => hsame _ (by
        simp [Await.loads, hl]))] at hp
      exact Progress.returns.inj hp
    | lookupAbsent => cases hloads
    | broken hreply =>
      rename_i reply
      cases reply with
      | text v =>
        obtain ⟨text, rfl, hnone⟩ := hreply v rfl
        simp [Await.loads, hnone] at hloads
      | ok => cases hloads
      | error => cases hloads

theorem WritesKept.part {a : Action} (h : s.WritesKept a)
    (hruns : Runs s a t request activity next) (hwritten : s.blob.WrittenAt key slice) :
    ∀ a choice, activity = .resume a choice → key ∉ a.publishes ∧
      (∀ l : LockWrapper, a.loads = some (key, l) → l.written = true ∧ l.slice = slice) ∧
        (a.looksUp = some key → ∃ l, a.loads = some (key, l)) := by
  rintro a choice rfl
  cases hruns with
  | resume hcall => exact h _ hcall key slice hwritten

theorem WritesKept.writtenAt {a : Action} (h : s.WritesKept a) {s' : Server} {es : List Event}
    (hstep : s.step a = some (s', es)) (hwritten : s.blob.WrittenAt key slice) :
    s'.blob.WrittenAt key slice := by
  cases step_of_eq hstep with
  | part hruns part =>
    rw [after_blob]
    apply part.writtenAt hwritten
    intro a choice hresume
    obtain ⟨hkey, hloads, -⟩ := h.part hruns hwritten a choice hresume
    exact ⟨hkey, hloads⟩
  | restart => exact h.elim
  | _ => exact hwritten

/-- What the lookups that have returned say of the map. -/
structure WrittenInv (shown : List Event) (s : Server) : Prop where
  expected : s.Expected
  found : ∀ e ∈ shown, ∀ key slice, e.request = .lookup key → e.response = .slice slice →
    s.blob.WrittenAt key slice
  immutable : Immutable shown

theorem WrittenInv.step {shown : List Event} (hs : WrittenInv shown s) {a : Action}
    (h : s.WritesKept a) {s' : Server} {es : List Event} (hstep : s.step a = some (s', es)) :
    WrittenInv (shown ++ es) s' := by
  have hexpected := (step_of_eq hstep).expected hs.expected
  have hfound : ∀ e ∈ shown, ∀ key slice, e.request = .lookup key → e.response = .slice slice →
      s'.blob.WrittenAt key slice :=
    fun e he key slice hrequest hresponse =>
      h.writtenAt hstep (hs.found e he key slice hrequest hresponse)
  cases step_of_eq hstep with
  | part hruns part =>
    rename_i t request activity next s₁ p
    cases p with
    | waits a =>
      rw [settle, List.append_nil]
      exact ⟨hexpected, hfound, hs.immutable⟩
    | returns r =>
      rw [settle]
      refine ⟨hexpected, ?_, ?_⟩
      · intro e he key slice hrequest hresponse
        rcases List.mem_append.mp he with he | he
        · exact hfound e he key slice hrequest hresponse
        · cases List.mem_singleton.mp he
          dsimp only at hrequest hresponse
          subst hrequest hresponse
          rw [after_blob]
          exact part.writtenAt_of_lookup (hruns.of hs.expected)
      · refine List.pairwise_append.mpr ⟨hs.immutable, List.pairwise_singleton _ _, ?_⟩
        intro e he e' he' key slice hrequest hresponse hrequest'
        cases List.mem_singleton.mp he'
        dsimp only at hrequest'
        subst hrequest'
        have hwritten := hs.found e he key slice hrequest hresponse
        have hof := hruns.of hs.expected
        refine part.lookup_of_writtenAt hof hwritten fun a choice hresume => ?_
        obtain ⟨-, hsame, hloads⟩ := h.part hruns hwritten a choice hresume
        subst hresume
        refine ⟨hsame, hloads ?_⟩
        cases hof with
        | resume hexpects =>
          cases hexpects
          rfl
  | restart => exact h.elim
  | _ =>
    rw [List.append_nil]
    exact ⟨hexpected, hfound, hs.immutable⟩

/-- In a run in which written entries are kept, a lookup that has found a slice is followed by
lookups that find the same. -/
theorem immutable_of_run {config : BlobStorageConfig} {redis : Redis} {n : CallId}
    {s₀ s : Server} {es : List Event} (hboot : boot config redis n = some s₀)
    (hrun : Run Server.step WritesKept s₀ es s) : Immutable es := by
  have hstart : WrittenInv [] s₀ := ⟨expected_boot hboot, by simp, List.Pairwise.nil⟩
  exact (hrun.invariantShown hstart fun hs h hstep => hs.step h hstep).immutable

/-- Two creations check the same key before either puts it into the map. -/
def checkedTwice : List Action :=
  [.call (.createAndLock [⟨"a", 1⟩] "node"), .call (.createAndLock [⟨"a", 1⟩] "node"),
    .execute 0, .execute 1, .resume 0 0, .resume 1 0, .resume 0 0, .execute 0, .resume 0 0,
    .execute 0, .resume 0 0, .execute 0, .resume 0 0, .call (.createUnlock 0 "node"), .execute 2,
    .resume 2 0, .call (.lookup "a")]

/-- A call goes on to change keys, or to look one up, before any entry is written. -/
def WritesEarly (s : Server) : Action → Prop
  | .resume t _ => ∀ c ∈ s.calls[t]?,
    (c.await.publishes = [] ∧ c.await.loads = none ∧ c.await.looksUp = none) ∨
      ∀ e ∈ s.blob.map.toList, e.2.written = false
  | .restart _ => False
  | _ => True

instance (s : Server) : (a : Action) → Decidable (s.WritesEarly a)
  | .resume t _ => inferInstanceAs
    (Decidable (∀ c ∈ s.calls[t]?,
      (c.await.publishes = [] ∧ c.await.loads = none ∧ c.await.looksUp = none) ∨
        ∀ e ∈ s.blob.map.toList, e.2.written = false))
  | .restart _ => isFalse id
  | .call _ | .execute _ | .tick _ | .receive _ => isTrue trivial

theorem WritesEarly.kept {a : Action} (h : s.WritesEarly a) : s.WritesKept a := by
  cases a with
  | resume t choice =>
    intro c hcall key slice hwritten
    rcases h c hcall with ⟨hpublishes, hloads, hlooks⟩ | hnone
    · simp [hpublishes, hloads, hlooks]
    · obtain ⟨-, l, hl, hwritten, -⟩ := hwritten
      have hunwritten := hnone (key, l) (ExtTreeMap.mem_toList_iff_getElem?_eq_some.mpr hl)
      exact absurd (hwritten.symm.trans hunwritten) (by decide)
  | restart => exact h
  | _ => trivial

theorem immutable_of_run_checkedTwice : ∃ s₀ es s, boot ⟨2⟩ ∅ 0 = some s₀ ∧
    Run Server.step WritesEarly s₀ es s ∧
      (es.filter fun e => e.request = .lookup "a").map (·.response) =
        [.slice ⟨0, "blob_0.bin", 0, 1⟩, .slice ⟨0, "blob_0.bin", 0, 1⟩] ∧ Immutable es := by
  obtain ⟨s₀, hboot, hexec⟩ := Option.bind_eq_some_iff.mp
    (show ((boot ⟨2⟩ ∅ 0).bind fun s₀ => (exec Server.step WritesEarly s₀
      (checkedTwice ++ [.call (.lookup "a")])).map
        fun r => (r.2.filter fun e => e.request = .lookup "a").map (·.response)) =
          some [.slice ⟨0, "blob_0.bin", 0, 1⟩, .slice ⟨0, "blob_0.bin", 0, 1⟩] by decide +kernel)
  obtain ⟨s, es, hrun, hes⟩ := exists_run_of_exec hexec
  exact ⟨s₀, es, s, hboot, hrun, hes, immutable_of_run hboot (hrun.mono fun _ _ => WritesEarly.kept)⟩

/-- The second creation goes on to put its own slice into the map. -/
def overwritten : List Action :=
  checkedTwice ++ [.resume 1 0, .execute 1, .resume 1 0, .execute 1, .resume 1 0,
    .call (.lookup "a")]

/-- A lookup finds the slice of the first creation, and a later one that it is not written. -/
theorem not_immutable_overwritten : ∃ s₀ es s, boot ⟨2⟩ ∅ 0 = some s₀ ∧
    Run Server.step (fun _ _ => True) s₀ es s ∧ ¬Immutable es := by
  obtain ⟨s₀, hboot, hexec⟩ := Option.bind_eq_some_iff.mp
    (show ((boot ⟨2⟩ ∅ 0).bind fun s₀ => (exec Server.step (fun _ _ => True) s₀ overwritten).map
      fun r => r.2) = some [
        ⟨0, .createAndLock [⟨"a", 1⟩] "node", .offset ⟨0, "blob_0.bin", 0, true⟩⟩,
        ⟨2, .createUnlock 0 "node", .unlocked⟩, ⟨3, .lookup "a", .slice ⟨0, "blob_0.bin", 0, 1⟩⟩,
        ⟨4, .lookup "a", .error .notWritten⟩] by decide +kernel)
  obtain ⟨s, es, hrun, hes⟩ := exists_run_of_exec hexec
  refine ⟨s₀, es, s, hboot, hrun, ?_⟩
  dsimp only at hes
  rw [hes, Immutable]
  simp

end Server

end NpmFollower.BlobIdxServer
