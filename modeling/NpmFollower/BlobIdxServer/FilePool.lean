import NpmFollower.BlobIdxServer.Parts

/-! # The file pool in memory and in Redis

A part of a call adds the next file to the pool, or reserves space in one of its
files. The pool is written to Redis file by file, under a key that nothing else
should use, and a restart loads what has been written.
-/

namespace NpmFollower.BlobIdxServer

open Std PostgresDb

/-- The file whose entry in Redis the await has written or will write. -/
def Await.savedFile : Await → Option FileInfo
  | .redis (.addFile _ _ _ info) _ => some info
  | .redis (.setSize _ _ _ _ _ info) _ => some info
  | _ => none

@[simp] theorem Await.savedFile_deaf (a : Await) : a.deaf.savedFile = a.savedFile := by
  cases a <;> rfl

namespace Redis

/-- The key of the file pool has been overwritten. -/
def Clobbered (r : Redis) : Prop := ∃ text, r[filePoolKey]? = some (.string text)

/-- The entry of a file as a restart reads it. -/
def storedFile (r : Redis) (fileId : UInt32) : Option FileInfo :=
  match r[filePoolKey]? with
  | some (.hash fields) => fields[fileId]?.bind FileInfo.deserialize
  | _ => none

/-- Every entry can be read, and names its own file. -/
def FilesReadable (r : Redis) : Prop :=
  ∀ fields, r[filePoolKey]? = some (.hash fields) → ∀ fileId text, fields[fileId]? = some text →
    ∃ info, FileInfo.deserialize text = some info ∧ info.fileId = fileId

variable {r : Redis}

theorem getElem?_setMultiple (items : List (String × Value)) (key : String) :
    (r.setMultiple items)[key]? = r[key]? ∧ key ∉ items.map Prod.fst ∨
      ∃ text, (key, text) ∈ items ∧ (r.setMultiple items)[key]? = some (.string text) := by
  induction items using List.reverseRecOn with
  | nil => exact .inl ⟨rfl, by simp⟩
  | append_singleton items e ih =>
    have hlast : (r.setMultiple (items ++ [e]))[key]? =
        if e.1 = key then some (.string e.2) else (r.setMultiple items)[key]? := by
      rw [setMultiple, List.foldl_append, List.foldl_cons, List.foldl_nil,
        FiniteMap.getElem?_insert]
      rfl
    rw [hlast]
    by_cases hkey : e.1 = key
    · exact .inr ⟨e.2, by simp [← hkey], if_pos hkey⟩
    · rw [if_neg hkey]
      rcases ih with ⟨heq, hnot⟩ | ⟨text, hmem, heq⟩
      · exact .inl ⟨heq, by simpa [hnot] using Ne.symm hkey⟩
      · exact .inr ⟨text, List.mem_append_left _ hmem, heq⟩

theorem Clobbered.execute (h : r.Clobbered) (c : Command) : (r.execute c).1.Clobbered := by
  obtain ⟨text, htext⟩ := h
  cases c with
  | get key =>
    rw [Redis.execute]
    split <;> exact ⟨text, htext⟩
  | hset fileId v =>
    rw [Redis.execute, htext]
    exact ⟨text, htext⟩
  | setMultiple items =>
    rw [Redis.execute]
    split_ifs
    · exact ⟨text, htext⟩
    · rcases getElem?_setMultiple items filePoolKey with ⟨heq, -⟩ | ⟨text', -, heq⟩
      · exact ⟨text, heq.trans htext⟩
      · exact ⟨text', heq⟩

/-- A command that does not write a file leaves the entries of the files, or overwrites them all. -/
theorem execute_filePoolKey {c : Command} (hc : ∀ fileId text, c ≠ .hset fileId text) :
    (r.execute c).1[filePoolKey]? = r[filePoolKey]? ∨ (r.execute c).1.Clobbered := by
  cases c with
  | get key =>
    rw [execute]
    split <;> exact .inl rfl
  | hset fileId text => exact absurd rfl (hc fileId text)
  | setMultiple items =>
    rw [execute]
    split_ifs
    · exact .inl rfl
    · rcases getElem?_setMultiple items filePoolKey with ⟨heq, -⟩ | ⟨text', -, heq⟩
      · exact .inl heq
      · exact .inr ⟨text', heq⟩

theorem execute_hset (hr : ¬r.Clobbered) (fileId : UInt32) (text : Value) :
    ∃ fields, (r.execute (.hset fileId text)).1[filePoolKey]? = some (.hash fields) ∧
      ∀ id : UInt32, fields[id]? =
        if fileId = id then some text
        else match r[filePoolKey]? with
          | some (.hash old) => old[id]?
          | _ => none := by
  rw [execute]
  cases hpool : r[filePoolKey]? with
  | none =>
    refine ⟨_, ExtTreeMap.getElem?_insert_self, fun id => ?_⟩
    rw [FiniteMap.getElem?_insert]
    simp
  | some value =>
    cases value with
    | string text' => exact absurd ⟨text', hpool⟩ hr
    | hash old => exact ⟨_, ExtTreeMap.getElem?_insert_self, fun id => FiniteMap.getElem?_insert ..⟩

theorem storedFile_hset (hr : ¬r.Clobbered) (info : FileInfo) (id : UInt32) :
    (r.execute (.hset info.fileId info.serialize)).1.storedFile id =
      if info.fileId = id then some info else r.storedFile id := by
  obtain ⟨fields, hfields, hget⟩ := execute_hset hr info.fileId info.serialize
  rw [storedFile, hfields]
  dsimp only
  rw [hget]
  split_ifs
  · exact info.deserialize_serialize
  · rw [storedFile]
    cases r[filePoolKey]? with
    | none => rfl
    | some value => cases value <;> rfl

theorem FilesReadable.fileId_eq (h : r.FilesReadable) {fileId : UInt32} {info : FileInfo}
    (hinfo : r.storedFile fileId = some info) : info.fileId = fileId := by
  rw [storedFile] at hinfo
  split at hinfo
  · rename_i fields hfields
    obtain ⟨text, htext, hread⟩ := Option.bind_eq_some_iff.mp hinfo
    obtain ⟨info', hinfo', hid⟩ := h fields hfields fileId text htext
    cases hread.symm.trans hinfo'
    exact hid
  · cases hinfo

theorem FilesReadable.hset (h : r.FilesReadable) (info : FileInfo) :
    (r.execute (.hset info.fileId info.serialize)).1.FilesReadable := by
  intro fields hfields id text htext
  by_cases hr : r.Clobbered
  · obtain ⟨text', htext'⟩ := hr.execute (.hset info.fileId info.serialize)
    rw [htext'] at hfields
    cases hfields
  · obtain ⟨fields', hfields', hget⟩ := execute_hset hr info.fileId info.serialize
    cases hfields'.symm.trans hfields
    rw [hget] at htext
    split_ifs at htext with hid
    · cases htext
      exact ⟨info, info.deserialize_serialize, hid⟩
    · cases hold : r[filePoolKey]? with
      | none => simp [hold] at htext
      | some value =>
        cases value with
        | string text' => simp [hold] at htext
        | hash old =>
          rw [hold] at htext
          exact h old hold id text htext

theorem FilesReadable.of_eq {r' : Redis} (h : r.FilesReadable)
    (heq : r'[filePoolKey]? = r[filePoolKey]? ∨ r'.Clobbered) : r'.FilesReadable := by
  rintro fields hfields
  rcases heq with heq | ⟨text, htext⟩
  · exact h fields (heq ▸ hfields)
  · rw [htext] at hfields
    cases hfields

theorem Clobbered.storedFile_eq (h : r.Clobbered) (fileId : UInt32) : r.storedFile fileId = none := by
  obtain ⟨text, htext⟩ := h
  rw [storedFile, htext]

end Redis

section Init

variable {config : BlobStorageConfig} {r : Redis} {b : BlobStorage}

/-- Entries that can be read are read as files with the same ids. -/
theorem mapM_deserialize {l : List (UInt32 × Value)} {infos : List FileInfo}
    (hl : ∀ e ∈ l, ∃ info, FileInfo.deserialize e.2 = some info ∧ info.fileId = e.1)
    (h : (l.mapM fun e => FileInfo.deserialize e.2) = some infos) :
    infos.map (fun info => info.fileId) = l.map Prod.fst ∧
      ∀ info ∈ infos, ∃ text, (info.fileId, text) ∈ l ∧ FileInfo.deserialize text = some info := by
  induction l generalizing infos with
  | nil =>
    cases h
    exact ⟨rfl, by simp⟩
  | cons e l ih =>
    obtain ⟨⟨info, hinfo, hid⟩, hrest⟩ := List.forall_mem_cons.mp hl
    rw [List.mapM_cons] at h
    obtain ⟨info', hinfo', h⟩ := Option.bind_eq_some_iff.mp h
    obtain ⟨rest, hmap, h⟩ := Option.bind_eq_some_iff.mp h
    cases h
    cases hinfo.symm.trans hinfo'
    obtain ⟨hids, htexts⟩ := ih hrest hmap
    refine ⟨by rw [List.map_cons, List.map_cons, hid, hids], ?_⟩
    rintro i hi
    rcases List.mem_cons.mp hi with rfl | hi
    · exact ⟨e.2, by rw [hid]; exact List.mem_cons_self, hinfo⟩
    · obtain ⟨text, hmem, htext⟩ := htexts i hi
      exact ⟨text, List.mem_cons_of_mem _ hmem, htext⟩

theorem exists_mapM {l : List (UInt32 × Value)}
    (hl : ∀ e ∈ l, ∃ info, FileInfo.deserialize e.2 = some info) :
    ∃ infos, (l.mapM fun e => FileInfo.deserialize e.2) = some infos := by
  induction l with
  | nil => exact ⟨[], rfl⟩
  | cons e l ih =>
    obtain ⟨⟨info, hinfo⟩, hrest⟩ := List.forall_mem_cons.mp hl
    obtain ⟨infos, hinfos⟩ := ih hrest
    exact ⟨info :: infos, by simp [List.mapM_cons, hinfo, hinfos]⟩

theorem exists_init (hr : r.FilesReadable) (hcalm : ¬r.Clobbered) (config : BlobStorageConfig) :
    ∃ b, BlobStorage.init config r = some b := by
  rw [BlobStorage.init]
  cases hpool : r[filePoolKey]? with
  | none => exact ⟨_, rfl⟩
  | some value =>
    cases value with
    | string text => exact absurd ⟨text, hpool⟩ hcalm
    | hash fields =>
      have hread : ∀ e ∈ fields.toList, ∃ info, FileInfo.deserialize e.2 = some info := by
        intro e he
        obtain ⟨info, hinfo, -⟩ :=
          hr fields hpool e.1 e.2 (ExtTreeMap.mem_toList_iff_getElem?_eq_some.mp he)
        exact ⟨info, hinfo⟩
      obtain ⟨infos, hinfos⟩ := exists_mapM hread
      simp [hinfos]

/-- What a restart loads. -/
theorem init_filePool (hr : r.FilesReadable) (hinit : BlobStorage.init config r = some b)
    (fileId : UInt32) : b.filePool[fileId]? = r.storedFile fileId := by
  rw [BlobStorage.init] at hinit
  rw [Redis.storedFile]
  cases hpool : r[filePoolKey]? with
  | none =>
    rw [hpool] at hinit
    cases hinit
    rfl
  | some value =>
    cases value with
    | string text =>
      rw [hpool] at hinit
      cases hinit
    | hash fields =>
      rw [hpool] at hinit
      obtain ⟨infos, hinfos, hinit⟩ := Option.bind_eq_some_iff.mp hinit
      cases hinit
      have hentry {id : UInt32} {text : Value} (h : (id, text) ∈ fields.toList) :
          fields[id]? = some text := ExtTreeMap.mem_toList_iff_getElem?_eq_some.mp h
      obtain ⟨hids, htexts⟩ := mapM_deserialize
        (fun e he => hr fields hpool e.1 e.2 (hentry he)) hinfos
      have hfold : infos.foldl (fun (pool : DashMap UInt32 FileInfo) info =>
          pool.insert info.fileId info) ∅ =
            (infos.map fun info => (info.fileId, info)).foldl (fun pool e => pool.insert e.1 e.2) ∅ := by
        rw [List.foldl_map]
      change (infos.foldl (fun (pool : DashMap UInt32 FileInfo) info =>
        pool.insert info.fileId info) ∅)[fileId]? = fields[fileId]?.bind FileInfo.deserialize
      rw [hfold]
      have hkeys : ((infos.map fun info => (info.fileId, info)).map Prod.fst).Nodup := by
        rw [List.map_map]
        change (infos.map fun info => info.fileId).Nodup
        rw [hids, ExtTreeMap.map_fst_toList_eq_keys]
        exact ExtTreeMap.nodup_keys
      cases htext : fields[fileId]? with
      | some text =>
        obtain ⟨info, hinfo, hid⟩ := hr fields hpool fileId text htext
        rw [Option.bind_some, hinfo]
        refine FiniteMap.getElem?_foldl_insert_of_mem hkeys _ ?_
        have hmem : fileId ∈ infos.map fun info => info.fileId := by
          rw [hids, ExtTreeMap.map_fst_toList_eq_keys, ExtTreeMap.mem_keys,
            ExtTreeMap.mem_iff_isSome_getElem?, htext]
          rfl
        obtain ⟨info', hinfo', hid'⟩ := List.mem_map.mp hmem
        obtain ⟨text', hmem', htext'⟩ := htexts info' hinfo'
        have hsame := (hentry hmem').symm.trans (hid' ▸ htext)
        cases hsame
        cases htext'.symm.trans hinfo
        exact List.mem_map.mpr ⟨info, hinfo', by rw [hid]⟩
      | none =>
        refine FiniteMap.getElem?_foldl_insert_of_not_mem _ fun e he heq => ?_
        obtain ⟨info, hinfo, rfl⟩ := List.mem_map.mp he
        obtain ⟨text, hmem, -⟩ := htexts info hinfo
        have hsome := hentry hmem
        dsimp only at heq
        rw [heq, htext] at hsome
        cases hsome

theorem init_maxFiles (hinit : BlobStorage.init config r = some b)
    (hlt : b.filePool.size < 2 ^ 32) : b.filePool.size ≤ b.config.maxFiles.toNat := by
  rw [BlobStorage.init] at hinit
  split at hinit
  · cases hinit
    exact Nat.zero_le _
  · cases hinit
  · obtain ⟨infos, -, hinit⟩ := Option.bind_eq_some_iff.mp hinit
    cases hinit
    dsimp only at hlt ⊢
    split_ifs with hmax
    · exact (UInt32.toNat_ofNat_of_lt hlt).ge
    · exact le_of_not_gt hmax

/-- A restart forgets the locks. -/
theorem init_forgets (hinit : BlobStorage.init config r = some b) :
    b.map = ∅ ∧ b.lockedFiles = ∅ ∧ b.fileLock = none ∧ b.cleanupTasks = ∅ := by
  rw [BlobStorage.init] at hinit
  split at hinit
  · cases hinit
    exact ⟨rfl, rfl, rfl, rfl⟩
  · cases hinit
  · obtain ⟨infos, -, hinit⟩ := Option.bind_eq_some_iff.mp hinit
    cases hinit
    exact ⟨rfl, rfl, rfl, rfl⟩

end Init

section Parts

namespace Server

variable {s s₁ : Server} {t : CallId} {activity : Activity} {p : Progress}

/-- What a part does to the pool: nothing, one file more, or space reserved in a file. -/
inductive PoolMove (s s₁ : Server) : Progress → Prop where
  | same {p : Progress} (hpool : s₁.blob.filePool = s.blob.filePool)
      (hp : ∀ a, p = .waits a → a.savedFile = none) : PoolMove s s₁ p
  | add (entries : List BlobEntry) (nodeId : String)
      (hsize : UInt32.ofNat s.blob.filePool.size ≠ s.blob.config.maxFiles)
      (hpool : s₁.blob.filePool = s.blob.filePool.insert (.ofNat s.blob.filePool.size)
        (.new (.ofNat s.blob.filePool.size))) :
      PoolMove s s₁ (.waits (.redis (.addFile entries nodeId (.ofNat s.blob.filePool.size)
        (.new (.ofNat s.blob.filePool.size))) none))
  | grow (entries : List BlobEntry) (nodeId : String) (fileId : UInt32) (info : FileInfo)
      (needsCreation : Bool) (hinfo : s.blob.filePool[fileId]? = some info)
      (hpool : s₁.blob.filePool = s.blob.filePool.insert fileId (info.grow entries)) :
      PoolMove s s₁ (.waits (.redis
        (.setSize entries nodeId fileId needsCreation info.size (info.grow entries)) none))

theorem savedFile_checked {b : BlobStorage} {entries : List BlobEntry} {nodeId : String}
    {keys : List String} (h : b.Checked entries nodeId keys p) :
    ∀ a, p = .waits a → a.savedFile = none := by
  cases h <;> rintro _ ⟨⟩ <;> rfl

theorem savedFile_marked {b : BlobStorage} {fileId : UInt32} {keys : List String}
    {toSet : List (String × Value)} (h : b.Marked fileId keys toSet p) :
    ∀ a, p = .waits a → a.savedFile = none := by
  cases h <;> rintro _ ⟨⟩ <;> rfl

theorem savedFile_startLookup (b : BlobStorage) (key : String) :
    ∀ a, b.startLookup key = .waits a → a.savedFile = none := by
  intro a ha
  rw [BlobStorage.startLookup] at ha
  split_ifs at ha
  split at ha <;> cases ha
  rfl

theorem Part.poolMove (h : Part s t activity s₁ p) : PoolMove s s₁ p := by
  cases h with
  | check hp => exact .same rfl (savedFile_checked hp)
  | checkAbsent hp => exact .same rfl (savedFile_checked hp)
  | checkLoaded hl hp => exact .same rfl (savedFile_checked hp)
  | pickNew hlock hsize hfile =>
    subst hfile
    exact .add _ _ hsize rfl
  | pickFree hlock hsize hfree hinfo => exact .grow _ _ _ _ false hinfo rfl
  | notified hinfo => exact .grow _ _ _ _ false hinfo rfl
  | reserve hinfo => exact .grow _ _ _ _ true hinfo rfl
  | publish needsCreation byteOffset info =>
    rw [BlobStorage.publish_eq]
    exact .same rfl (by rintro _ ⟨⟩; rfl)
  | unlock hlock hnode =>
    exact .same (BlobStorage.markKeys_filePool _ _ _) (savedFile_marked (BlobStorage.markKeys_marked _ _ _))
  | markLoaded hl =>
    exact .same (BlobStorage.markKeys_filePool _ _ _) (savedFile_marked (BlobStorage.markKeys_marked _ _ _))
  | unlocked hinfo => exact .same (by rw [abortCleaner_eq]; rfl) (by rintro _ ⟨⟩)
  | unlockedNone hnone => exact .same (by rw [abortCleaner_eq]) (by rintro _ ⟨⟩)
  | lookup => exact .same rfl (savedFile_startLookup _ _)
  | lookupLoaded hl => exact .same rfl (savedFile_startLookup _ _)
  | _ => exact .same rfl (by rintro _ ⟨⟩ <;> rfl)

theorem Part.config_eq (h : Part s t activity s₁ p) : s₁.blob.config = s.blob.config := by
  cases h with
  | publish needsCreation byteOffset info => rw [BlobStorage.publish_eq]; rfl
  | unlock hlock hnode => exact BlobStorage.markKeys_config _ _ _
  | markLoaded hl => exact BlobStorage.markKeys_config _ _ _
  | unlocked hinfo => rw [abortCleaner_eq]; rfl
  | unlockedNone hnone => rw [abortCleaner_eq]
  | _ => rfl

end Server

end Parts

end NpmFollower.BlobIdxServer
