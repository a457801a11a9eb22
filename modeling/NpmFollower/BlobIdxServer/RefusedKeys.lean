import NpmFollower.BlobIdxServer.Reservations

/-! # Refused keys

`create_and_lock` refuses a key that is written, and with the same error one that is
only reserved while its file is locked. A key that is written stays so, unless a call
puts an older state of it back.
-/

namespace NpmFollower.BlobIdxServer

open Std PostgresDb

namespace BlobStorage

/-- The map has a written entry. -/
def isWritten (b : BlobStorage) (key : String) : Bool :=
  key ≠ filePoolKey && (b.map[key]?).any fun l => l.written

/-- The key checks come to a key that is reserved, but not written, in a file that is locked. -/
def meetsReserved (b : BlobStorage) : List String → Bool
  | [] => false
  | key :: rest =>
    if key = filePoolKey then b.meetsReserved rest
    else
      match b.map[key]? with
      | none => false
      | some l => !l.written && (b.lockedFiles.contains l.slice.fileId || b.meetsReserved rest)

variable {b : BlobStorage} {key : String}

theorem isWritten_iff : b.isWritten key ↔
    key ≠ filePoolKey ∧ ∃ l, b.map[key]? = some l ∧ l.written = true := by
  simp [isWritten, Option.any_eq_true]

theorem isWritten_of_refused {entries : List BlobEntry} {nodeId : String} {keys : List String}
    (h : b.checkKeys entries nodeId keys = .returns (.error (.alreadyExists key)))
    (hclear : b.meetsReserved keys = false) : b.isWritten key := by
  induction keys with
  | nil =>
    rw [checkKeys] at h
    split_ifs at h
    cases h
  | cons k keys ih =>
    rw [checkKeys] at h
    rw [meetsReserved] at hclear
    by_cases hk : k = filePoolKey
    · rw [if_pos hk] at h hclear
      exact ih h hclear
    · rw [if_neg hk] at h hclear
      cases hl : b.map[k]? with
      | none =>
        rw [hl] at h
        cases h
      | some l =>
        rw [hl] at h hclear
        dsimp only at h hclear
        cases hwritten : l.written with
        | true =>
          rw [rejection, if_pos hwritten] at h
          cases h
          exact isWritten_iff.mpr ⟨hk, l, hl, hwritten⟩
        | false =>
          simp only [hwritten, Bool.not_false, Bool.true_and, Bool.or_eq_false_iff] at hclear
          rw [rejection, hwritten, hclear.1] at h
          exact ih h hclear.2

end BlobStorage

/-- The check of a creation that goes on comes to a reserved key. -/
def Await.meetsReserved (b : BlobStorage) : Await → Bool
  | .redis (.checkKey _ _ _ rest) (some (.text none)) => b.meetsReserved rest
  | .redis (.checkKey _ _ key rest) (some (.text (some v))) =>
    (LockWrapper.deserialize v).any fun l => (b.insertKey key l).meetsReserved (key :: rest)
  | _ => false

namespace Server

/-- A creation comes to a key that is reserved, but not written, in a file that is locked. -/
def meetsReserved (s : Server) : Action → Bool
  | .call (.createAndLock entries _) => s.blob.meetsReserved (keysOf entries)
  | .resume t _ => (s.calls[t]?).any fun c => c.await.meetsReserved s.blob
  | _ => false

/-- A call puts a written key into the map again, as one that is not written. -/
def unwrites (s : Server) : Action → Bool
  | .resume t _ => (s.calls[t]?).any fun c =>
    (c.await.puts.any fun key => s.blob.isWritten key) ||
      c.await.loads.any fun e => s.blob.isWritten e.1 && !e.2.written
  | _ => false

variable {s s₁ s' : Server} {t : CallId} {request : Request} {activity : Activity} {p : Progress}
  {a : Action} {next : CallId} {key : String} {es : List Event}

/-- A written key stays written, if the call does not put another entry there. -/
theorem Part.isWritten (h : Part s t activity s₁ p) (hwritten : s.blob.isWritten key)
    (hkept : ∀ a choice, activity = .resume a choice → key ∉ a.puts ∧
      ∀ l : LockWrapper, a.loads = some (key, l) → l.written = true) : s₁.blob.isWritten key := by
  rw [BlobStorage.isWritten_iff] at hwritten ⊢
  obtain ⟨hkey, l, hl, hwritten⟩ := hwritten
  refine ⟨hkey, ?_⟩
  have hinsert : ∀ (key' : String) (l' : LockWrapper) (a : Await) (choice : UInt32),
      activity = .resume a choice → a.loads = some (key', l') →
        ∃ l'', (s.blob.insertKey key' l').map[key]? = some l'' ∧ l''.written = true := by
    intro key' l' a choice hactivity ha
    rw [BlobStorage.insertKey_map, FiniteMap.getElem?_insert]
    split_ifs with heq
    · subst heq
      exact ⟨l', rfl, (hkept a choice hactivity).2 l' ha⟩
    · exact ⟨l, hl, hwritten⟩
  have hmark : ∀ (b : BlobStorage) (l' : LockWrapper), b.map[key]? = some l' → l'.written = true →
      ∀ (fileId : UInt32) (keys : List String) (toSet : List (String × Value)),
        ∃ l'', (b.markKeys fileId keys toSet).1.map[key]? = some l'' ∧ l''.written = true := by
    intro b l' hl' hwritten' fileId keys toSet
    rw [BlobStorage.markKeys_map, hl']
    split_ifs
    · exact ⟨l'.marked, rfl, rfl⟩
    · exact ⟨l', rfl, hwritten'⟩
  cases h with
  | checkLoaded hread hp => exact hinsert _ _ _ _ rfl (by simp [Await.loads, hread])
  | lookupLoaded hread => exact hinsert _ _ _ _ rfl (by simp [Await.loads, hread])
  | publish needsCreation byteOffset info =>
    refine ⟨l, ?_, hwritten⟩
    rw [withBlob, getElem?_publish (hkept _ _ rfl).1, hl]
  | unlock hlock hnode => exact hmark (s.removeLock _).blob l hl hwritten _ _ _
  | markLoaded hread =>
    obtain ⟨l', hl', hwritten'⟩ := hinsert _ _ _ _ rfl (congrArg (Option.map _) hread)
    exact hmark _ l' hl' hwritten' _ _ _
  | unlocked hinfo => rw [abortCleaner_eq]; exact ⟨l, hl, hwritten⟩
  | unlockedNone hnone => rw [abortCleaner_eq]; exact ⟨l, hl, hwritten⟩
  | _ => exact ⟨l, hl, hwritten⟩

/-- Only the key checks of a creation refuse a key. -/
theorem Part.refused (h : Part s t activity s₁ (.returns (.error (.alreadyExists key)))) :
    (∃ entries nodeId, activity = .start (.createAndLock entries nodeId)) ∨
      ∃ entries nodeId key' rest v choice, activity =
        .resume (.redis (.checkKey entries nodeId key' rest) (some (.text v))) choice := by
  have hmarked : ∀ (b : BlobStorage) (fileId : UInt32) (keys : List String)
      (toSet : List (String × Value)),
      (b.markKeys fileId keys toSet).2 ≠ .returns (.error (.alreadyExists key)) := by
    intro b fileId keys toSet heq
    have h := BlobStorage.markKeys_marked (b := b) fileId keys toSet
    rw [heq] at h
    cases h
  have hlookup : ∀ (b : BlobStorage) (key' : String),
      b.startLookup key' ≠ .returns (.error (.alreadyExists key)) := by
    intro b key' heq
    rw [BlobStorage.startLookup] at heq
    split_ifs at heq
    · cases heq
    · split at heq
      · rw [BlobStorage.lookupResponse] at heq
        split_ifs at heq <;> cases heq
      · cases heq
  generalize hp : Progress.returns (.error (.alreadyExists key)) = p at h
  cases h with
  | check hc => exact .inl ⟨_, _, rfl⟩
  | checkAbsent hc => exact .inr ⟨_, _, _, _, _, _, rfl⟩
  | checkLoaded hl hc => exact .inr ⟨_, _, _, _, _, _, rfl⟩
  | publish needsCreation byteOffset info =>
    rw [BlobStorage.publish_eq] at hp
    cases hp
  | unlock hlock hnode => exact absurd hp.symm (hmarked _ _ _ _)
  | markLoaded hl => exact absurd hp.symm (hmarked _ _ _ _)
  | lookup => exact absurd hp.symm (hlookup _ _)
  | lookupLoaded hl => exact absurd hp.symm (hlookup _ _)
  | _ => cases hp

theorem settle_blob (request : Request) (p : Progress) :
    (s.settle t request p).1.blob = s.blob := by cases p <;> rfl

theorem mem_settle {e : Event} (he : e ∈ (s.settle t request p).2) : p = .returns e.response := by
  cases p with
  | waits a => cases he
  | returns r =>
    cases List.mem_singleton.mp he
    rfl

/-- A refused key is written, if the checks do not come to a reserved one. -/
theorem isWritten_of_refused (h : s.step a = some (s', es)) (hclear : s.meetsReserved a = false)
    {e : Event} (he : e ∈ es) (hrefused : e.response = .error (.alreadyExists key)) :
    s'.blob.isWritten key := by
  cases a with
  | call request =>
    rw [step_call] at h
    have hpair := Option.some.inj h
    have hs' := congrArg Prod.fst hpair
    have hes := congrArg Prod.snd hpair
    subst hs' hes
    have hp := mem_settle he
    rw [hrefused] at hp
    have hpart := part_start (s := s) (t := s.nextCall) request
    rw [hp] at hpart
    rcases hpart.refused with ⟨entries, nodeId, heq⟩ | ⟨_, _, _, _, _, _, heq⟩
    · cases heq
      rw [settle_blob]
      exact BlobStorage.isWritten_of_refused hp hclear
    · cases heq
  | resume t choice =>
    obtain ⟨c, hcall, hrest⟩ := Option.bind_eq_some_iff.mp h
    obtain ⟨⟨s₁, p⟩, hresume, heq⟩ := Option.bind_eq_some_iff.mp hrest
    have hpair := Option.some.inj heq
    have hs' := congrArg Prod.fst hpair
    have hes := congrArg Prod.snd hpair
    subst hs' hes
    have hp := mem_settle he
    rw [hrefused] at hp
    rw [settle_blob]
    rw [meetsReserved, hcall, Option.any_some] at hclear
    have hpart := part_resume hresume
    dsimp only at hp hpart
    rw [hp] at hpart
    rcases hpart.refused with ⟨_, _, heq⟩ | ⟨entries, nodeId, key', rest, v, choice', heq⟩
    · cases heq
    · obtain ⟨request, await⟩ := c
      cases heq
      dsimp only at hclear hresume
      have hresult := Option.some.inj hresume
      cases v with
      | none =>
        obtain ⟨rfl, rfl⟩ := Prod.mk.inj hresult
        exact BlobStorage.isWritten_of_refused hp hclear
      | some v =>
        dsimp only [resumeRedis, load] at hresult
        cases hl : LockWrapper.deserialize v with
        | none =>
          rw [hl] at hresult
          obtain ⟨-, rfl⟩ := Prod.mk.inj hresult
          cases hp
        | some l =>
          rw [hl] at hresult
          obtain ⟨rfl, rfl⟩ := Prod.mk.inj hresult
          rw [Await.meetsReserved, hl, Option.any_some] at hclear
          exact BlobStorage.isWritten_of_refused hp hclear
  | execute t =>
    obtain ⟨s₁, -, heq⟩ := Option.map_eq_some_iff.mp h
    cases heq
    cases he
  | tick cleaner =>
    obtain ⟨s₁, -, heq⟩ := Option.map_eq_some_iff.mp h
    cases heq
    cases he
  | receive cleaner =>
    obtain ⟨c, -, hrest⟩ := Option.bind_eq_some_iff.mp h
    split_ifs at hrest
    cases hrest
    cases he
  | restart config =>
    obtain ⟨s₁, -, heq⟩ := Option.map_eq_some_iff.mp h
    cases heq
    cases he

theorem unwrites_resume {c : Call} {choice : UInt32} (hcall : s.calls[t]? = some c)
    (hkept : s.unwrites (.resume t choice) = false) (hwritten : s.blob.isWritten key) :
    key ∉ c.await.puts ∧ ∀ l : LockWrapper, c.await.loads = some (key, l) → l.written = true := by
  rw [unwrites, hcall, Option.any_some, Bool.or_eq_false_iff] at hkept
  obtain ⟨hputs, hloads⟩ := hkept
  constructor
  · intro hmem
    exact absurd hwritten (List.any_eq_false.mp hputs key hmem)
  · intro l hl
    rw [hl, Option.any_some, hwritten] at hloads
    simpa using hloads

/-- A written key stays written. -/
theorem isWritten_step (h : s.step a = some (s', es)) (haction : a.KeepsRunning)
    (hkept : s.unwrites a = false) (hwritten : s.blob.isWritten key) : s'.blob.isWritten key := by
  cases step_of_eq h with
  | part hruns part =>
    rw [after_blob]
    apply part.isWritten hwritten
    rintro a₀ choice rfl
    cases hruns with
    | resume hcall => exact unwrites_resume hcall hkept hwritten
  | restart => exact haction.elim
  | _ => exact hwritten

end Server

end NpmFollower.BlobIdxServer
