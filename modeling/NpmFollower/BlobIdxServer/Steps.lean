import NpmFollower.BlobIdxServer.Calls

/-! # What the parts of a call do

Each part of a call changes few fields of the server. The loops over the keys of
a batch are described as a whole, and a step of the server by the part of the
call that it runs.
-/

namespace NpmFollower.BlobIdxServer

open Std PostgresDb

namespace LockWrapper

/-- What `create_unlock` makes of an entry. -/
def marked (l : LockWrapper) : LockWrapper := { l with lock := none, written := true }

@[simp] theorem marked_marked (l : LockWrapper) : l.marked.marked = l.marked := rfl

@[simp] theorem marked_written (l : LockWrapper) : l.marked.written = true := rfl

@[simp] theorem marked_slice (l : LockWrapper) : l.marked.slice = l.slice := rfl

end LockWrapper

namespace BlobStorage

variable (b : BlobStorage)

section Fields

variable (key : String) (l : LockWrapper)

@[simp] theorem insertKey_map : (b.insertKey key l).map = b.map.insert key l := rfl

@[simp] theorem insertKey_config : (b.insertKey key l).config = b.config := rfl

@[simp] theorem insertKey_filePool : (b.insertKey key l).filePool = b.filePool := rfl

@[simp] theorem insertKey_lockedFiles : (b.insertKey key l).lockedFiles = b.lockedFiles := rfl

@[simp] theorem insertKey_fileLock : (b.insertKey key l).fileLock = b.fileLock := rfl

@[simp] theorem insertKey_cleanupTasks : (b.insertKey key l).cleanupTasks = b.cleanupTasks := rfl

end Fields

section Marks

/-- The keys that `create_unlock` marks before it waits or panics. -/
def markable (keys : List String) : List String :=
  keys.takeWhile fun key => decide (key ≠ filePoolKey) && b.map.contains key

variable {b}

theorem contains_of_some {key : String} {l : LockWrapper} (h : b.map[key]? = some l) :
    b.map.contains key = true := by
  rw [ExtTreeMap.contains_eq_isSome_getElem?, h]
  rfl

theorem contains_of_none {key : String} (h : b.map[key]? = none) : b.map.contains key = false := by
  rw [ExtTreeMap.contains_eq_isSome_getElem?, h]
  rfl

theorem markable_insertKey {key : String} (hkey : b.map.contains key) (l : LockWrapper)
    (keys : List String) : (b.insertKey key l).markable keys = b.markable keys := by
  have hcontains : ∀ k : String, (b.map.insert key l).contains k = b.map.contains k := by
    intro k
    rw [ExtTreeMap.contains_insert]
    by_cases hk : compare key k = .eq
    · rw [LawfulEqCmp.eq_of_compare hk] at hkey
      simp [hkey]
    · simp [hk]
  simp only [markable, insertKey_map, hcontains]

theorem markable_cons_of_mem {key : String} {rest : List String} (hkey : key ≠ filePoolKey)
    (hmem : b.map.contains key) : b.markable (key :: rest) = key :: b.markable rest := by
  simp [markable, hkey, hmem]

theorem markable_cons_of_not_mem {key : String} {rest : List String}
    (h : key = filePoolKey ∨ b.map.contains key = false) : b.markable (key :: rest) = [] := by
  rcases h with h | h <;> simp [markable, h]

/-- Marking changes the map alone. -/
theorem markKeys_eq (fileId : UInt32) (keys : List String) (toSet : List (String × Value)) :
    (b.markKeys fileId keys toSet).1 = { b with map := (b.markKeys fileId keys toSet).1.map } := by
  induction keys generalizing b toSet with
  | nil => rfl
  | cons key rest ih =>
    rw [markKeys]
    split_ifs with hkey
    · rfl
    · cases hl : b.map[key]? with
      | none => rfl
      | some l => exact ih _

@[simp] theorem markKeys_config (fileId : UInt32) (keys : List String)
    (toSet : List (String × Value)) : (b.markKeys fileId keys toSet).1.config = b.config := by
  rw [markKeys_eq]

@[simp] theorem markKeys_filePool (fileId : UInt32) (keys : List String)
    (toSet : List (String × Value)) : (b.markKeys fileId keys toSet).1.filePool = b.filePool := by
  rw [markKeys_eq]

@[simp] theorem markKeys_lockedFiles (fileId : UInt32) (keys : List String)
    (toSet : List (String × Value)) :
    (b.markKeys fileId keys toSet).1.lockedFiles = b.lockedFiles := by
  rw [markKeys_eq]

@[simp] theorem markKeys_fileLock (fileId : UInt32) (keys : List String)
    (toSet : List (String × Value)) : (b.markKeys fileId keys toSet).1.fileLock = b.fileLock := by
  rw [markKeys_eq]

@[simp] theorem markKeys_cleanupTasks (fileId : UInt32) (keys : List String)
    (toSet : List (String × Value)) :
    (b.markKeys fileId keys toSet).1.cleanupTasks = b.cleanupTasks := by
  rw [markKeys_eq]

theorem markKeys_map (fileId : UInt32) (keys : List String) (toSet : List (String × Value))
    (k : String) : (b.markKeys fileId keys toSet).1.map[k]? =
      if k ∈ b.markable keys then b.map[k]?.map LockWrapper.marked else b.map[k]? := by
  induction keys generalizing b toSet with
  | nil => rfl
  | cons key rest ih =>
    rw [markKeys]
    by_cases hkey : key = filePoolKey
    · rw [if_pos hkey, markable_cons_of_not_mem (.inl hkey)]
      rfl
    rw [if_neg hkey]
    cases hl : b.map[key]? with
    | none =>
      rw [markable_cons_of_not_mem (.inr (contains_of_none hl))]
      rfl
    | some l =>
      have hmem := contains_of_some hl
      rw [markable_cons_of_mem hkey hmem]
      dsimp only
      rw [ih, markable_insertKey hmem, insertKey_map, FiniteMap.getElem?_insert]
      by_cases hk : key = k
      · subst hk
        simp [hl, LockWrapper.marked]
      · simp [hk, Ne.symm hk]

/-- How the marks end: all keys are marked, one is not in memory, or one is reserved. -/
inductive Marked (b : BlobStorage) (fileId : UInt32) (keys : List String)
    (toSet : List (String × Value)) : Progress → Prop where
  | all (items : List (String × Value)) (hkeys : b.markable keys = keys)
      (hitems : items.map Prod.fst = keys)
      (htexts : ∀ e ∈ items, ∃ l, b.map[e.1]? = some l ∧ e.2 = l.marked.serialize) :
      Marked b fileId keys toSet (.waits (.redis (.setWritten fileId (toSet ++ items)) none))
  | asks (pre : List String) (key : String) (rest : List String) (items : List (String × Value))
      (hkeys : keys = pre ++ key :: rest) (hpre : b.markable keys = pre) (hkey : key ≠ filePoolKey)
      (hnone : b.map[key]? = none) (hitems : items.map Prod.fst = pre)
      (htexts : ∀ e ∈ items, ∃ l, b.map[e.1]? = some l ∧ e.2 = l.marked.serialize) :
      Marked b fileId keys toSet (.waits (.redis (.markKey fileId key rest (toSet ++ items)) none))
  | reserved (hkey : filePoolKey ∈ keys) : Marked b fileId keys toSet (.returns .panicked)

theorem Marked.cons {fileId : UInt32} {key : String} {l : LockWrapper} {keys : List String}
    {toSet : List (String × Value)} {p : Progress} (hkey : key ≠ filePoolKey)
    (hl : b.map[key]? = some l)
    (h : Marked (b.insertKey key l.marked) fileId keys (toSet ++ [(key, l.marked.serialize)]) p) :
    Marked b fileId (key :: keys) toSet p := by
  have hmem := contains_of_some hl
  have htexts {items : List (String × Value)} (h : ∀ e ∈ items,
      ∃ l', (b.insertKey key l.marked).map[e.1]? = some l' ∧ e.2 = l'.marked.serialize) :
      ∀ e ∈ (key, l.marked.serialize) :: items,
        ∃ l', b.map[e.1]? = some l' ∧ e.2 = l'.marked.serialize := by
    intro e he
    rcases List.mem_cons.mp he with rfl | he
    · exact ⟨l, hl, rfl⟩
    · obtain ⟨l', hl', htext⟩ := h e he
      rw [insertKey_map, FiniteMap.getElem?_insert] at hl'
      split_ifs at hl' with heq
      · cases hl'
        exact ⟨l, heq ▸ hl, htext⟩
      · exact ⟨l', hl', htext⟩
  cases h with
  | all items hkeys hitems h =>
    rw [markable_insertKey hmem] at hkeys
    rw [List.append_assoc]
    exact .all _ (by rw [markable_cons_of_mem hkey hmem, hkeys]) (by simp [hitems]) (htexts h)
  | asks pre key' rest items hsplit hpre hne hnone hitems h =>
    rw [markable_insertKey hmem] at hpre
    rw [insertKey_map, FiniteMap.getElem?_insert] at hnone
    split_ifs at hnone with heq
    rw [List.append_assoc]
    exact .asks (key :: pre) key' rest _ (by rw [hsplit, List.cons_append])
      (by rw [markable_cons_of_mem hkey hmem, hpre]) hne hnone (by simp [hitems]) (htexts h)
  | reserved hmem => exact .reserved (List.mem_cons_of_mem _ hmem)

theorem markKeys_marked (fileId : UInt32) (keys : List String) (toSet : List (String × Value)) :
    Marked b fileId keys toSet (b.markKeys fileId keys toSet).2 := by
  induction keys generalizing b toSet with
  | nil =>
    have hall : Marked b fileId [] toSet
        (.waits (.redis (.setWritten fileId (toSet ++ [])) none)) := .all [] rfl rfl (by simp)
    rwa [List.append_nil] at hall
  | cons key rest ih =>
    rw [markKeys]
    by_cases hkey : key = filePoolKey
    · rw [if_pos hkey]
      exact .reserved (by simp [hkey])
    rw [if_neg hkey]
    cases hl : b.map[key]? with
    | none =>
      have hasks : Marked b fileId (key :: rest) toSet
          (.waits (.redis (.markKey fileId key rest (toSet ++ [])) none)) :=
        .asks [] key rest [] rfl (markable_cons_of_not_mem (.inr (contains_of_none hl))) hkey hl rfl
          (by simp)
      rwa [List.append_nil] at hasks
    | some l => exact .cons hkey hl (ih _)

end Marks

section Publish

variable (entries : List BlobEntry) (nodeId : String) (fileId : UInt32) (needsCreation : Bool)
  (byteOffset : UInt64) (info : FileInfo)

/-- The entries that `create_and_lock` puts into the map. -/
def wrappersFrom (entries : List BlobEntry) (nodeId : String) (fileId : UInt32)
    (byteOffset : UInt64) (info : FileInfo) : List (String × LockWrapper) :=
  (slicesFrom fileId info.fileName byteOffset entries).map fun e =>
    (e.1, ⟨e.2, false, some nodeId⟩)

theorem foldl_insertKey (l : List (String × LockWrapper)) :
    l.foldl (fun b e => insertKey b e.1 e.2) b =
      { b with map := l.foldl (fun m e => m.insert e.1 e.2) b.map } := by
  induction l generalizing b with
  | nil => rfl
  | cons e l ih => exact ih _

theorem publish_eq : b.publish entries nodeId fileId needsCreation byteOffset info =
    ({ b with
        map := (wrappersFrom entries nodeId fileId byteOffset info).foldl
          (fun m e => m.insert e.1 e.2) b.map },
      .waits (.redis (.setSlices ⟨fileId, info.fileName, byteOffset, needsCreation⟩
        ((wrappersFrom entries nodeId fileId byteOffset info).map fun e => (e.1, e.2.serialize)))
        none)) := by
  rw [publish, ← wrappersFrom]
  simp only [foldl_insertKey]

theorem keys_slicesFrom (fileName : String) (offset : UInt64) :
    (slicesFrom fileId fileName offset entries).map Prod.fst = keysOf entries := by
  induction entries generalizing offset with
  | nil => rfl
  | cons e entries ih => rw [slicesFrom, List.map_cons, ih, keysOf, keysOf, List.map_cons]

theorem keys_wrappersFrom :
    (wrappersFrom entries nodeId fileId byteOffset info).map Prod.fst = keysOf entries := by
  rw [wrappersFrom, List.map_map]
  exact keys_slicesFrom entries fileId info.fileName byteOffset

end Publish

section Checks

/-- The key is in the map, and `create_and_lock` may reserve it again. -/
def Free (key : String) : Prop :=
  key = filePoolKey ∨ ∃ l, b.map[key]? = some l ∧ b.rejection key l = none

variable {b}

/-- How the key checks end: all keys are free, one is rejected, or one is not in memory. -/
inductive Checked (b : BlobStorage) (entries : List BlobEntry) (nodeId : String)
    (keys : List String) : Progress → Prop where
  | passed (hfree : ∀ key ∈ keys, b.Free key) (hkeys : (keysOf entries).Nodup) :
      Checked b entries nodeId keys (.waits (.fileLock entries nodeId))
  | duplicate (hkeys : ¬(keysOf entries).Nodup) :
      Checked b entries nodeId keys (.returns (.error .duplicateKeys))
  | rejected {key : String} {l : LockWrapper} (hmem : key ∈ keys) (hkey : key ≠ filePoolKey)
      (hl : b.map[key]? = some l) (hrejected : b.rejection key l = some (.alreadyExists key)) :
      Checked b entries nodeId keys (.returns (.error (.alreadyExists key)))
  | asks (pre : List String) (key : String) (rest : List String) (hkeys : keys = pre ++ key :: rest)
      (hpre : ∀ k ∈ pre, b.Free k) (hkey : key ≠ filePoolKey) (hnone : b.map[key]? = none) :
      Checked b entries nodeId keys (.waits (.redis (.checkKey entries nodeId key rest) none))

theorem Checked.cons {entries : List BlobEntry} {nodeId key : String} {keys : List String}
    {p : Progress} (h : Checked b entries nodeId keys p) (hfree : b.Free key) :
    Checked b entries nodeId (key :: keys) p := by
  cases h with
  | passed hall hkeys => exact .passed (List.forall_mem_cons.mpr ⟨hfree, hall⟩) hkeys
  | duplicate hkeys => exact .duplicate hkeys
  | rejected hmem hkey hl hrejected => exact .rejected (List.mem_cons_of_mem _ hmem) hkey hl hrejected
  | asks pre key' rest hkeys hpre hkey hnone =>
    exact .asks (key :: pre) key' rest (by rw [hkeys, List.cons_append])
      (List.forall_mem_cons.mpr ⟨hfree, hpre⟩) hkey hnone

theorem rejection_eq_some {key : String} {l : LockWrapper} {e : BlobError}
    (h : b.rejection key l = some e) : e = .alreadyExists key := by
  rw [rejection] at h
  split_ifs at h <;> exact (Option.some.inj h).symm

theorem checkKeys_checked (entries : List BlobEntry) (nodeId : String) (keys : List String) :
    Checked b entries nodeId keys (b.checkKeys entries nodeId keys) := by
  induction keys with
  | nil =>
    rw [checkKeys]
    split_ifs with hkeys
    · exact .passed (by simp) hkeys
    · exact .duplicate hkeys
  | cons key rest ih =>
    rw [checkKeys]
    by_cases hkey : key = filePoolKey
    · rw [if_pos hkey]
      exact ih.cons (.inl hkey)
    rw [if_neg hkey]
    cases hl : b.map[key]? with
    | none =>
      exact .asks [] key rest rfl (by simp) hkey hl
    | some l =>
      dsimp only
      cases hrejection : b.rejection key l with
      | none => exact ih.cons (.inr ⟨l, hl, hrejection⟩)
      | some e =>
        cases rejection_eq_some hrejection
        exact .rejected List.mem_cons_self hkey hl hrejection

end Checks

end BlobStorage

end NpmFollower.BlobIdxServer
