import NpmFollower.Library.Runs
import NpmFollower.BlobIdxServer.FilePool

/-! # File ids over crashes

A new file takes the size of the pool as its id, under the lock for picking a
file, but reaches Redis after that lock is released. A crash in between loses an
id, and this is harmless unless a higher one has reached Redis already.
-/

namespace NpmFollower.BlobIdxServer

open Std PostgresDb Runs

/-- The ids are those below the number of files, and the next new file is none of them. -/
def BlobStorage.IdsDense (b : BlobStorage) : Prop :=
  (∃ n, ∀ id : UInt32, id ∈ b.filePool ↔ id.toNat < n) ∧
    (UInt32.ofNat b.filePool.size ≠ b.config.maxFiles →
      UInt32.ofNat b.filePool.size ∉ b.filePool)

namespace Server

/-- The first entry of a file is on its way to Redis. -/
def Pending (s : Server) (fileId : UInt32) : Prop :=
  ∃ t entries nodeId info, s.At t (.redis (.addFile entries nodeId fileId info) none)

/-- No file whose first entry is on its way to Redis has an id below one that Redis holds. -/
def NoGap (s : Server) : Prop :=
  ∀ fileId, s.Pending fileId → s.redis.storedFile fileId = none →
    ∀ id > fileId, s.redis.storedFile id = none

/-- A restart on what Redis holds now has dense ids, for every configuration it can be given. -/
def IdsSurvive (s : Server) : Prop :=
  ∀ config b, BlobStorage.init config s.redis = some b → b.IdsDense

/-- A crash comes only where no id is lost below one that is kept. -/
def CrashAtNoGap (s : Server) : Action → Prop
  | .restart _ => s.NoGap
  | _ => True

/-- The entry of a new file names the file. -/
def NamesFile : Await → Prop
  | .redis (.addFile _ _ fileId info) _ => info.fileId = fileId
  | _ => True

/-- A crash comes only where no call is in flight. -/
def CrashAtRest (s : Server) : Action → Prop
  | .restart _ => s.calls.isEmpty
  | _ => True

instance (s : Server) : (a : Action) → Decidable (s.CrashAtRest a)
  | .restart _ => inferInstanceAs (Decidable (s.calls.isEmpty = true))
  | .call _ | .execute _ | .resume _ _ | .tick _ | .receive _ => isTrue trivial

theorem noGap_of_isEmpty {s : Server} (h : s.calls.isEmpty) : s.NoGap := by
  rintro fileId ⟨t, entries, nodeId, info, hat⟩
  rw [At, ExtTreeMap.isEmpty_iff.mp h, ExtTreeMap.getElem?_empty] at hat
  cases hat

theorem CrashAtRest.atNoGap {s : Server} {a : Action} (h : s.CrashAtRest a) : s.CrashAtNoGap a := by
  cases a with
  | restart config => exact noGap_of_isEmpty h
  | _ => trivial

/-- The ids of the pool, in memory and in Redis. -/
structure IdsInv (s : Server) : Prop where
  fresh : s.Fresh
  dense : ∀ i j, j ∈ s.blob.filePool → i ≤ j → i ∈ s.blob.filePool
  bounded : s.blob.filePool.size ≤ s.blob.config.maxFiles.toNat
  saved : ∀ t a, s.At t a → ∀ info : FileInfo, a.savedFile = some info →
    info.fileId ∈ s.blob.filePool
  added : ∀ t a, s.At t a → NamesFile a
  named : ∀ id (info : FileInfo), s.blob.filePool[id]? = some info → info.fileId = id
  readable : s.redis.FilesReadable
  stored : ∀ id, s.redis.storedFile id ≠ none → id ∈ s.blob.filePool
  accounted : ¬s.redis.Clobbered → ∀ id ∈ s.blob.filePool,
    s.redis.storedFile id ≠ none ∨ s.Pending id

section Pool

variable {b : BlobStorage} (hdense : ∀ i j, j ∈ b.filePool → i ≤ j → i ∈ b.filePool)
  (hbounded : b.filePool.size ≤ b.config.maxFiles.toNat)

theorem size_lt_maxFiles (hbounded : b.filePool.size ≤ b.config.maxFiles.toNat)
    (hsize : UInt32.ofNat b.filePool.size ≠ b.config.maxFiles) :
    b.filePool.size < b.config.maxFiles.toNat := by
  apply hbounded.lt_of_ne
  intro heq
  rw [heq, UInt32.ofNat_toNat] at hsize
  exact hsize rfl

theorem toNat_nextFile (hbounded : b.filePool.size ≤ b.config.maxFiles.toNat) :
    (UInt32.ofNat b.filePool.size).toNat = b.filePool.size :=
  UInt32.toNat_ofNat_of_lt (hbounded.trans_lt b.config.maxFiles.toNat_lt)

include hdense hbounded

theorem nextFile_not_mem : UInt32.ofNat b.filePool.size ∉ b.filePool := by
  rw [FiniteMap.mem_iff_lt_size hdense, toNat_nextFile hbounded]
  exact lt_irrefl _

theorem idsDense_of_bounded : b.IdsDense :=
  ⟨⟨_, FiniteMap.mem_iff_lt_size hdense⟩, fun _ => nextFile_not_mem hdense hbounded⟩

end Pool

section Parts

variable {s s₁ : Server} {t : CallId} {request : Request} {activity : Activity} {p : Progress}
  {action : Action} {next : CallId}

/-- A call that Redis has not answered yet does not go on. -/
theorem Part.answered {k : Continuation} {reply : Option Reply}
    {choice : UInt32} (h : Part s t (.resume (.redis k reply) choice) s₁ p) : reply ≠ none := by
  rintro rfl
  cases h

theorem Part.unanswered (h : Part s t activity s₁ p) (hruns : Runs s action t request activity next)
    (hs : s.Fresh) {t' : CallId} {k : Continuation} (hat : s.At t' (.redis k none)) :
    (s₁.after t request next p).At t' (.redis k none) := by
  rw [at_after]
  split_ifs with ht
  · exfalso
    subst ht
    cases hruns with
    | start request => exact lt_irrefl _ (hs _ _ hat)
    | resume hcall =>
      rename_i c
      rw [At, hcall] at hat
      obtain ⟨request', await⟩ := c
      cases await <;> cases hat
      exact h.answered rfl
  · exact h.at_iff.mpr hat

theorem Part.pending (h : Part s t activity s₁ p) (hruns : Runs s action t request activity next)
    (hs : s.Fresh) {fileId : UInt32} (hpending : s.Pending fileId) :
    (s₁.after t request next p).Pending fileId := by
  obtain ⟨t', entries, nodeId, info, hat⟩ := hpending
  exact ⟨t', entries, nodeId, info, h.unanswered hruns hs hat⟩

theorem namesFile_of_savedFile {a : Await} (h : a.savedFile = none) : NamesFile a := by
  cases a with
  | redis k reply =>
    cases k with
    | addFile entries nodeId fileId info => cases h
    | _ => trivial
  | _ => trivial

/-- A part that keeps the ids of the pool, and saves one of them if it saves any. -/
theorem IdsInv.part_of_mem (hs : s.IdsInv) (hruns : Runs s action t request activity next)
    (part : Part s t activity s₁ p) (hmem : ∀ id, id ∈ s₁.blob.filePool ↔ id ∈ s.blob.filePool)
    (hsize : s₁.blob.filePool.size = s.blob.filePool.size)
    (hnamed : ∀ id (info : FileInfo), s₁.blob.filePool[id]? = some info → info.fileId = id)
    (hsaved : ∀ a, p = .waits a → ∀ info : FileInfo, a.savedFile = some info →
      info.fileId ∈ s.blob.filePool) (hadded : ∀ a, p = .waits a → NamesFile a.deaf) :
    (s₁.after t request next p).IdsInv where
  fresh := (Step.part hruns part).fresh hs.fresh
  dense := by simpa only [after_blob, hmem] using hs.dense
  bounded := by
    rw [after_blob, hsize, part.config_eq]
    exact hs.bounded
  saved := by
    simp only [after_blob, hmem]
    apply part.forall_at fun t' a _ => hs.saved t' a
    intro a hp info hinfo
    exact hsaved a hp info (by rwa [Await.savedFile_deaf] at hinfo)
  added := part.forall_at (fun t' a _ => hs.added t' a) hadded
  named := by simpa only [after_blob] using hnamed
  readable := by
    rw [after_redis, part.redis_eq]
    exact hs.readable
  stored := by
    simp only [after_redis, after_blob, part.redis_eq, hmem]
    exact hs.stored
  accounted := by
    simp only [after_redis, after_blob, part.redis_eq, hmem]
    intro hclobbered id hid
    exact (hs.accounted hclobbered id hid).imp_right (part.pending hruns hs.fresh)

theorem IdsInv.part (hs : s.IdsInv) (hruns : Runs s action t request activity next)
    (part : Part s t activity s₁ p) : (s₁.after t request next p).IdsInv := by
  cases part.poolMove with
  | same hpool hp =>
    apply hs.part_of_mem hruns part
    · simp [hpool]
    · rw [hpool]
    · rw [hpool]
      exact hs.named
    · intro a ha info hinfo
      rw [hp a ha] at hinfo
      cases hinfo
    · intro a ha
      apply namesFile_of_savedFile
      rw [Await.savedFile_deaf, hp a ha]
  | grow entries nodeId fileId info needsCreation hinfo hpool =>
    have hfile : fileId ∈ s.blob.filePool := FiniteMap.mem_iff_getElem?.mpr ⟨info, hinfo⟩
    apply hs.part_of_mem hruns part
    · intro id
      rw [hpool, FiniteMap.mem_insert]
      exact or_iff_right_of_imp fun heq => heq ▸ hfile
    · rw [hpool, ExtTreeMap.size_insert, if_pos (ExtTreeMap.contains_iff_mem.mpr hfile)]
    · intro id info' hinfo'
      rw [hpool, FiniteMap.getElem?_insert] at hinfo'
      split_ifs at hinfo' with hid
      · cases hinfo'
        exact (hs.named fileId info hinfo).trans hid
      · exact hs.named id info' hinfo'
    · rintro _ ⟨⟩ info' ⟨⟩
      rw [show (info.grow entries).fileId = fileId from hs.named fileId info hinfo]
      exact hfile
    · rintro _ ⟨⟩
      trivial
  | add entries nodeId hsize hpool =>
    have hlt := size_lt_maxFiles hs.bounded hsize
    have hmem (id : UInt32) : id ∈ s₁.blob.filePool ↔
        UInt32.ofNat s.blob.filePool.size = id ∨ id ∈ s.blob.filePool := by
      rw [hpool, FiniteMap.mem_insert]
    constructor
    case fresh => exact (Step.part hruns part).fresh hs.fresh
    case dense =>
      rw [after_blob]
      simp only [hmem, FiniteMap.mem_iff_lt_size hs.dense]
      intro i j hj hle
      have hle' := UInt32.le_iff_toNat_le.mp hle
      have hnext := toNat_nextFile hs.bounded
      rcases hj with rfl | hj
      · rcases hle'.lt_or_eq with hlt' | heq
        · exact .inr (hnext ▸ hlt')
        · exact .inl (UInt32.toNat.inj heq).symm
      · exact .inr (hle'.trans_lt hj)
    case bounded =>
      rw [after_blob, part.config_eq, hpool, ExtTreeMap.size_insert]
      split_ifs <;> omega
    case saved =>
      rw [after_blob]
      simp only [hmem]
      refine part.forall_at ?_ ?_
      · intro t' a _ hat info hinfo
        exact .inr (hs.saved t' a hat info hinfo)
      · rintro _ ⟨⟩ info ⟨⟩
        exact .inl rfl
    case added =>
      apply part.forall_at fun t' a _ => hs.added t' a
      rintro _ ⟨⟩
      rfl
    case named =>
      intro id info hinfo
      rw [after_blob, hpool, FiniteMap.getElem?_insert] at hinfo
      split_ifs at hinfo with hid
      · cases hinfo
        exact hid
      · exact hs.named id info hinfo
    case readable =>
      rw [after_redis, part.redis_eq]
      exact hs.readable
    case stored =>
      simp only [after_redis, after_blob, part.redis_eq, hmem]
      exact fun id hid => .inr (hs.stored id hid)
    case accounted =>
      simp only [after_redis, after_blob, part.redis_eq, hmem]
      rintro hclobbered id (rfl | hid)
      · right
        refine ⟨t, entries, nodeId, .new (.ofNat s.blob.filePool.size), ?_⟩
        rw [at_after, if_pos rfl]
        exact ⟨_, rfl, rfl⟩
      · exact (hs.accounted hclobbered id hid).imp_right (part.pending hruns hs.fresh)

end Parts

section Execute

variable {s : Server} {t : CallId} {request : Request} {k : Continuation}

theorem command_of_savedFile {info : FileInfo} {reply : Option Reply}
    (h : (Await.redis k reply).savedFile = some info) :
    k.command = .hset info.fileId info.serialize := by
  cases k <;> cases h <;> rfl

theorem command_ne_hset {reply : Option Reply} (h : (Await.redis k reply).savedFile = none)
    (fileId : UInt32) (text : Value) : k.command ≠ .hset fileId text := by
  cases k <;> cases h <;> simp [Continuation.command]

/-- What a command does to the entries of the files. -/
theorem storedFile_execute (hcalm : ¬(s.redis.execute k.command).1.Clobbered) (id : UInt32) :
    (s.redis.execute k.command).1.storedFile id =
      match (Await.redis k none).savedFile with
      | some info => if info.fileId = id then some info else s.redis.storedFile id
      | none => s.redis.storedFile id := by
  cases hsaved : (Await.redis k none).savedFile with
  | some info =>
    rw [command_of_savedFile hsaved] at hcalm ⊢
    apply Redis.storedFile_hset fun h => hcalm (h.execute _)
  | none =>
    rcases Redis.execute_filePoolKey (r := s.redis) (command_ne_hset hsaved) with heq | h
    · rw [Redis.storedFile, heq]
      rfl
    · exact absurd h hcalm

theorem filesReadable_execute (h : s.redis.FilesReadable) :
    (s.redis.execute k.command).1.FilesReadable := by
  cases hsaved : (Await.redis k none).savedFile with
  | some info =>
    rw [command_of_savedFile hsaved]
    exact h.hset info
  | none => exact h.of_eq (Redis.execute_filePoolKey (command_ne_hset hsaved))

theorem IdsInv.execute (hs : s.IdsInv) (hcall : s.calls[t]? = some ⟨request, .redis k none⟩) :
    (s.executed t request k).IdsInv := by
  have hat : s.At t (.redis k none) := at_of_call hcall
  have hkept {id : UInt32} (hcalm : ¬(s.redis.execute k.command).1.Clobbered)
      (h : s.redis.storedFile id ≠ none) :
      (s.redis.execute k.command).1.storedFile id ≠ none := by
    rw [storedFile_execute hcalm]
    split
    · split_ifs
      · exact Option.some_ne_none _
      · exact h
    · exact h
  constructor
  case fresh => exact (Step.execute hcall).fresh hs.fresh
  case dense => exact hs.dense
  case bounded => exact hs.bounded
  case saved =>
    refine forall_at_execute (fun t' a _ => hs.saved t' a) ?_
    intro info hinfo
    apply hs.saved t _ hat
    cases k <;> exact hinfo
  case added =>
    refine forall_at_execute (fun t' a _ => hs.added t' a) ?_
    have hadded := hs.added t _ hat
    cases k <;> exact hadded
  case named => exact hs.named
  case readable => exact filesReadable_execute hs.readable
  case stored =>
    intro id hid
    by_cases hcalm : (s.redis.execute k.command).1.Clobbered
    · exact absurd (hcalm.storedFile_eq id) hid
    · change (s.redis.execute k.command).1.storedFile id ≠ none at hid
      rw [storedFile_execute hcalm] at hid
      split at hid
      · rename_i info hsaved
        split_ifs at hid with heq
        · exact heq ▸ hs.saved t _ hat info hsaved
        · exact hs.stored id hid
      · exact hs.stored id hid
  case accounted =>
    intro hcalm id hid
    rcases hs.accounted (fun h => hcalm (h.execute _)) id hid with
      hstored | ⟨t', entries, nodeId, info, hat'⟩
    · exact .inl (hkept hcalm hstored)
    by_cases ht : t = t'
    · subst ht
      left
      change (s.redis.execute k.command).1.storedFile id ≠ none
      cases Option.some.inj (hat.symm.trans hat')
      have hnamed : info.fileId = id := hs.added t _ hat
      rw [storedFile_execute hcalm]
      simp [Await.savedFile, hnamed]
    · right
      refine ⟨t', entries, nodeId, info, ?_⟩
      rw [At, executed, FiniteMap.getElem?_insert, if_neg ht]
      exact hat'

end Execute

section Crash

variable {s : Server} {config : BlobStorageConfig} {b : BlobStorage}

theorem IdsInv.mem_init (hs : s.IdsInv) (hinit : BlobStorage.init config s.redis = some b)
    (id : UInt32) : id ∈ b.filePool ↔ s.redis.storedFile id ≠ none := by
  rw [FiniteMap.mem_iff_getElem?, init_filePool hs.readable hinit, Option.ne_none_iff_exists']

/-- What a restart loads is dense where no id is lost below one that is kept. -/
theorem IdsInv.dense_init (hs : s.IdsInv) (hgap : s.NoGap)
    (hinit : BlobStorage.init config s.redis = some b) :
    ∀ i j, j ∈ b.filePool → i ≤ j → i ∈ b.filePool := by
  intro i j hj hle
  rw [hs.mem_init hinit] at hj ⊢
  have hcalm : ¬s.redis.Clobbered := fun h => hj (h.storedFile_eq j)
  rcases hs.accounted hcalm i (hs.dense i j (hs.stored j hj) hle) with hi | hi
  · exact hi
  · intro hnone
    rcases UInt32.lt_or_eq_of_le hle with hlt | rfl
    · exact hj (hgap i hi hnone j hlt)
    · exact hj hnone

theorem IdsInv.bounded_init (hs : s.IdsInv) (hgap : s.NoGap)
    (hinit : BlobStorage.init config s.redis = some b) :
    b.filePool.size ≤ b.config.maxFiles.toNat := by
  apply init_maxFiles hinit
  by_contra hlarge
  have hall (id : UInt32) : id ∈ s.blob.filePool := by
    apply hs.stored
    rw [← hs.mem_init hinit, FiniteMap.mem_iff_lt_size (hs.dense_init hgap hinit)]
    exact id.toNat_lt.trans_le (Nat.le_of_not_lt hlarge)
  have hlast := (FiniteMap.mem_iff_lt_size hs.dense s.blob.config.maxFiles).mp (hall _)
  exact absurd hs.bounded (Nat.not_le_of_lt hlast)

theorem IdsInv.restart (hs : s.IdsInv) (hgap : s.NoGap) {s' : Server}
    (hboot : boot config s.redis s.nextCall = some s') : s'.IdsInv := by
  obtain ⟨b, hinit, rfl⟩ := Option.map_eq_some_iff.mp hboot
  constructor
  case fresh => exact fresh_boot hboot
  case dense => exact hs.dense_init hgap hinit
  case bounded => exact hs.bounded_init hgap hinit
  case saved => exact fun t a hat => absurd hat (not_at_boot hboot)
  case added => exact fun t a hat => absurd hat (not_at_boot hboot)
  case named =>
    intro id info hinfo
    change b.filePool[id]? = some info at hinfo
    rw [init_filePool hs.readable hinit] at hinfo
    exact hs.readable.fileId_eq hinfo
  case readable => exact hs.readable
  case stored => exact fun id hid => (hs.mem_init hinit id).mpr hid
  case accounted => exact fun _ id hid => .inl ((hs.mem_init hinit id).mp hid)

theorem IdsInv.step (hs : s.IdsInv) {a : Action} (hcrash : s.CrashAtNoGap a) {s' : Server}
    {es : List Event} (h : s.step a = some (s', es)) : s'.IdsInv := by
  cases step_of_eq h with
  | part hruns part => exact hs.part hruns part
  | execute hcall => exact hs.execute hcall
  | restart hboot => exact hs.restart hcrash hboot
  | expire =>
    constructor
    case fresh => exact (step_of_eq h).fresh hs.fresh
    case saved => exact fun t a hat => hs.saved t a ((at_notifyWaiters _).mp hat)
    case added => exact fun t a hat => hs.added t a ((at_notifyWaiters _).mp hat)
    case accounted =>
      intro hcalm id hid
      apply (hs.accounted hcalm id hid).imp_right
      rintro ⟨t, entries, nodeId, info, hat⟩
      exact ⟨t, entries, nodeId, info, (at_notifyWaiters _).mpr hat⟩
    case dense => exact hs.dense
    case bounded => exact hs.bounded
    case named => exact hs.named
    case readable => exact hs.readable
    case stored => exact hs.stored
  | stop => exact { hs with }
  | receive => exact { hs with }

theorem idsInv_boot (h : boot config ∅ 0 = some s) : s.IdsInv := by
  obtain ⟨b, hinit, rfl⟩ := Option.map_eq_some_iff.mp h
  have hempty : (∅ : Redis)[filePoolKey]? = none := ExtTreeMap.getElem?_empty
  rw [BlobStorage.init, hempty] at hinit
  cases hinit
  constructor
  case fresh => exact fresh_boot h
  case dense => exact fun i j hj => absurd hj ExtTreeMap.not_mem_empty
  case bounded => exact Nat.zero_le _
  case saved => exact fun t a hat => absurd hat (not_at_boot h)
  case added => exact fun t a hat => absurd hat (not_at_boot h)
  case named => simp
  case readable => simp [Redis.FilesReadable]
  case stored => simp [Redis.storedFile]
  case accounted => exact fun _ id hid => absurd hid ExtTreeMap.not_mem_empty

/-- A server started on a Redis without files, in a run in which no crash comes at a gap: the next
new file is new, and a crash now keeps the ids dense exactly where there is no gap. -/
theorem idsSurvive_iff (config : BlobStorageConfig) {s₀ s : Server} {es : List Event}
    (hboot : boot config ∅ 0 = some s₀) (hrun : Run step CrashAtNoGap s₀ es s) :
    s.blob.IdsDense ∧ (s.IdsSurvive ↔ s.NoGap) := by
  have hs : s.IdsInv := hrun.invariant (idsInv_boot hboot) fun hs hcrash h => hs.step hcrash h
  refine ⟨idsDense_of_bounded hs.dense hs.bounded, ?_, ?_⟩
  · intro hsurvive fileId hpending hnone id hlt
    by_contra hstored
    have hcalm : ¬s.redis.Clobbered := fun h => hstored (h.storedFile_eq id)
    obtain ⟨b, hinit⟩ := exists_init hs.readable hcalm s.blob.config
    obtain ⟨⟨n, hn⟩, -⟩ := hsurvive _ b hinit
    have hid : id.toNat < n := (hn id).mp ((hs.mem_init hinit id).mpr hstored)
    have hfile : fileId.toNat < n := (UInt32.lt_iff_toNat_lt.mp hlt).trans hid
    exact (hs.mem_init hinit fileId).mp ((hn fileId).mpr hfile) hnone
  · intro hgap config b hinit
    exact idsDense_of_bounded (hs.dense_init hgap hinit) (hs.bounded_init hgap hinit)

/-- A creation, and the server started again. -/
def createdAndRestarted : List Action :=
  [.call (.createAndLock [⟨"a", 1⟩] "node"), .execute 0, .resume 0 0, .resume 0 0, .execute 0,
    .resume 0 0, .execute 0, .resume 0 0, .execute 0, .resume 0 0, .restart ⟨2⟩]

theorem idsSurvive_iff_restarted : ∃ s₀ es s, boot ⟨2⟩ ∅ 0 = some s₀ ∧
    Run step CrashAtRest s₀ es s ∧ s.blob.filePool.keys = [0] ∧
      (s.blob.IdsDense ∧ (s.IdsSurvive ↔ s.NoGap)) := by
  obtain ⟨s₀, hboot, hexec⟩ := Option.bind_eq_some_iff.mp
    (show ((boot ⟨2⟩ ∅ 0).bind fun s₀ => (exec step CrashAtRest s₀ createdAndRestarted).map
      fun r => r.1.blob.filePool.keys) = some [0] by decide +kernel)
  obtain ⟨s, es, hrun, hkeys⟩ := exists_run_of_exec hexec
  exact ⟨s₀, es, s, hboot, hrun, hkeys,
    idsSurvive_iff ⟨2⟩ hboot (hrun.mono fun _ _ => CrashAtRest.atNoGap)⟩

/-- Two creations, of which Redis has executed the first `HSET` of the second only. -/
def overtaken : List Action :=
  [.call (.createAndLock [⟨"a", 1⟩] "node"), .execute 0, .resume 0 0, .resume 0 0,
    .call (.createAndLock [⟨"b", 1⟩] "node"), .execute 1, .resume 1 0, .resume 1 0, .execute 1]

/-- A crash loses the id 0 and keeps the id 1, which the next new file takes again. -/
theorem not_idsSurvive_overtaken : ∃ s₀ es s, boot ⟨2⟩ ∅ 0 = some s₀ ∧
    Run step (fun _ _ => True) s₀ es s ∧
      ∃ b, BlobStorage.init ⟨2⟩ s.redis = some b ∧
        (¬∃ n, ∀ id : UInt32, id ∈ b.filePool ↔ id.toNat < n) ∧
          UInt32.ofNat b.filePool.size ≠ b.config.maxFiles ∧
            UInt32.ofNat b.filePool.size ∈ b.filePool := by
  obtain ⟨s₀, hboot, hexec⟩ := Option.bind_eq_some_iff.mp
    (show ((boot ⟨2⟩ ∅ 0).bind fun s₀ => (exec step (fun _ _ => True) s₀ overtaken).map
      fun r => (BlobStorage.init ⟨2⟩ r.1.redis).map fun b =>
        (b.filePool.contains 0, b.filePool.contains 1, b.filePool.size, b.config.maxFiles)) =
          some (some (false, true, 1, 2)) by decide +kernel)
  obtain ⟨s, es, hrun, hinit⟩ := exists_run_of_exec hexec
  obtain ⟨b, hb, hids⟩ := Option.map_eq_some_iff.mp hinit
  simp only [Prod.mk.injEq] at hids
  obtain ⟨hzero, hone, hsize, hmax⟩ := hids
  refine ⟨s₀, es, s, hboot, hrun, b, hb, ?_, ?_, ?_⟩
  · rintro ⟨n, hn⟩
    have hpos := (hn 1).mp (ExtTreeMap.mem_iff_contains.mpr hone)
    have habsent : (0 : UInt32) ∉ b.filePool := by simp [ExtTreeMap.mem_iff_contains, hzero]
    exact habsent ((hn 0).mpr (Nat.zero_lt_of_lt hpos))
  · rw [hsize, hmax]
    decide
  · rw [hsize]
    exact ExtTreeMap.mem_iff_contains.mpr hone

end Crash

end Server

end NpmFollower.BlobIdxServer
