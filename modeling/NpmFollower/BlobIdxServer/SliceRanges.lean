import NpmFollower.BlobIdxServer.FileSync

/-! # The byte ranges of the slices

A batch gets the bytes from the size of its file on, one entry after the other,
and the file grows by them. So no two slices of a file overlap, as long as sizes
do not overflow and a restart finds the sizes that the memory had.
-/

namespace NpmFollower.BlobIdxServer

open Std PostgresDb Runs

/-- The number of bytes that a batch reserves. -/
def totalBytes (entries : List BlobEntry) : ℕ := (entries.map fun e => e.numBytes.toNat).sum

namespace BlobStorageSlice

/-- The end of the byte range. -/
def stop (x : BlobStorageSlice) : ℕ := x.byteOffset.toNat + x.numBytes.toNat

/-- The byte ranges do not overlap. -/
def Disjoint (x y : BlobStorageSlice) : Prop :=
  x.fileId = y.fileId → x.stop ≤ y.byteOffset.toNat ∨ y.stop ≤ x.byteOffset.toNat

/-- The byte range lies in its file of the pool. -/
def Within (b : BlobStorage) (x : BlobStorageSlice) : Prop :=
  ∃ info, b.filePool[x.fileId]? = some info ∧ x.stop ≤ info.size.toNat

theorem Disjoint.symm {x y : BlobStorageSlice} (h : x.Disjoint y) : y.Disjoint x :=
  fun hfile => (h hfile.symm).symm

end BlobStorageSlice

/-- The slices of a batch. -/
def batchSlices (fileId : UInt32) (fileName : String) (offset : UInt64)
    (entries : List BlobEntry) : List BlobStorageSlice :=
  (slicesFrom fileId fileName offset entries).map Prod.snd

section Batch

variable (fileId : UInt32) (fileName : String)

theorem batchSlices_cons (offset : UInt64) (e : BlobEntry) (entries : List BlobEntry) :
    batchSlices fileId fileName offset (e :: entries) =
      ⟨fileId, fileName, offset, e.numBytes⟩ ::
        batchSlices fileId fileName (offset + e.numBytes) entries := rfl

theorem totalBytes_cons (e : BlobEntry) (entries : List BlobEntry) :
    totalBytes (e :: entries) = e.numBytes.toNat + totalBytes entries := by
  simp [totalBytes]

theorem toNat_add_of_lt {m n : UInt64} (h : m.toNat + n.toNat < 2 ^ 64) :
    (m + n).toNat = m.toNat + n.toNat := by
  rw [UInt64.toNat_add, Nat.mod_eq_of_lt h]

theorem toNat_grow {info : FileInfo} {entries : List BlobEntry}
    (h : info.size.toNat + totalBytes entries < 2 ^ 64) :
    (info.grow entries).size.toNat = info.size.toNat + totalBytes entries := by
  obtain ⟨size, fileId, fileName⟩ := info
  simp only [FileInfo.grow] at h ⊢
  induction entries generalizing size with
  | nil => rfl
  | cons e entries ih =>
    rw [totalBytes_cons] at h ⊢
    have hadd := toNat_add_of_lt (m := size) (n := e.numBytes) (by omega)
    rw [List.foldl_cons, ih _ (by omega), hadd]
    omega

theorem mem_batchSlices {offset : UInt64} {entries : List BlobEntry} {x : BlobStorageSlice}
    (h : offset.toNat + totalBytes entries < 2 ^ 64)
    (hx : x ∈ batchSlices fileId fileName offset entries) :
    x.fileId = fileId ∧ offset.toNat ≤ x.byteOffset.toNat ∧
      x.stop ≤ offset.toNat + totalBytes entries := by
  induction entries generalizing offset with
  | nil => cases hx
  | cons e entries ih =>
    rw [totalBytes_cons] at h ⊢
    have hadd := toNat_add_of_lt (m := offset) (n := e.numBytes) (by omega)
    rw [batchSlices_cons] at hx
    rcases List.mem_cons.mp hx with rfl | hx
    · refine ⟨rfl, Nat.le_refl _, ?_⟩
      simp only [BlobStorageSlice.stop]
      omega
    · obtain ⟨hfile, hstart, hstop⟩ := ih (by omega) hx
      exact ⟨hfile, by omega, by omega⟩

theorem batchSlices_disjoint {offset : UInt64} {entries : List BlobEntry}
    (h : offset.toNat + totalBytes entries < 2 ^ 64) :
    (batchSlices fileId fileName offset entries).Pairwise BlobStorageSlice.Disjoint := by
  induction entries generalizing offset with
  | nil => exact List.Pairwise.nil
  | cons e entries ih =>
    rw [totalBytes_cons] at h
    have hadd := toNat_add_of_lt (m := offset) (n := e.numBytes) (by omega)
    rw [batchSlices_cons]
    refine List.pairwise_cons.mpr ⟨fun x hx _ => .inl ?_, ih (by omega)⟩
    obtain ⟨-, hstart, -⟩ := mem_batchSlices fileId fileName (by omega) hx
    simp only [BlobStorageSlice.stop]
    omega

end Batch

/-- The slices that a call has reserved and not handed out yet. -/
def Await.slices : Await → List BlobStorageSlice
  | .redis (.setSize entries _ fileId _ byteOffset info) _ =>
    batchSlices fileId info.fileName byteOffset entries
  | .redis (.setSlices _ toSetInRedis) _ =>
    toSetInRedis.filterMap fun e => (LockWrapper.deserialize e.2).map (·.slice)
  | _ => []

@[simp] theorem Await.slices_deaf (a : Await) : a.deaf.slices = a.slices := by cases a <;> rfl

@[simp] theorem Await.slices_redis (k : Continuation) (reply : Option Reply) :
    (Await.redis k reply).slices = (Await.redis k none).slices := by cases k <;> rfl

/-- The slices that `create_and_lock` has handed out. -/
def Event.slices (e : Event) : List BlobStorageSlice :=
  match e.request, e.response with
  | .createAndLock entries _, .offset o => batchSlices o.fileId o.fileName o.byteOffset entries
  | _, _ => []

theorem slices_setSlices (entries : List BlobEntry) (nodeId : String) (offset : BlobOffset)
    {info : FileInfo} (hname : info.fileName = offset.fileName) (reply : Option Reply) :
    (Await.redis (.setSlices offset
      ((BlobStorage.wrappersFrom entries nodeId offset.fileId offset.byteOffset info).map
        fun e => (e.1, e.2.serialize))) reply).slices =
      batchSlices offset.fileId offset.fileName offset.byteOffset entries := by
  rw [Await.slices, BlobStorage.wrappersFrom, List.map_map, List.filterMap_map, batchSlices, hname,
    ← List.filterMap_eq_map]
  congr 1
  funext e
  simp [LockWrapper.deserialize_serialize]

/-- Files stay in the pool and do not shrink. -/
def BlobStorage.PoolGrows (b b' : BlobStorage) : Prop :=
  ∀ (id : UInt32) (info : FileInfo), b.filePool[id]? = some info → ∃ info' : FileInfo,
    b'.filePool[id]? = some info' ∧ info'.fileName = info.fileName ∧
      info.size.toNat ≤ info'.size.toNat

theorem BlobStorage.PoolGrows.of_eq {b b' : BlobStorage} (h : b'.filePool = b.filePool) :
    b.PoolGrows b' := by
  intro id info hinfo
  exact ⟨info, h ▸ hinfo, rfl, Nat.le_refl _⟩

theorem BlobStorage.PoolGrows.trans {b b' b'' : BlobStorage} (h : b.PoolGrows b')
    (h' : b'.PoolGrows b'') : b.PoolGrows b'' := by
  intro id info hinfo
  obtain ⟨info', hinfo', hname, hle⟩ := h id info hinfo
  obtain ⟨info'', hinfo'', hname', hle'⟩ := h' id info' hinfo'
  exact ⟨info'', hinfo'', hname'.trans hname, hle.trans hle'⟩

theorem BlobStorageSlice.Within.mono {b b' : BlobStorage} {x : BlobStorageSlice}
    (h : x.Within b) (hgrows : b.PoolGrows b') : x.Within b' := by
  obtain ⟨info, hinfo, hle⟩ := h
  obtain ⟨info', hinfo', -, hle'⟩ := hgrows _ info hinfo
  exact ⟨info', hinfo', hle.trans hle'⟩

namespace Server

/-- The file and the batch for which a call reserves space when it goes on. -/
def reserves (s : Server) (choice : UInt32) : Await → Option (UInt32 × List BlobEntry)
  | .redis (.addFile entries _ fileId _) _ => some (fileId, entries)
  | .fileLock entries nodeId => (s.picks choice (.fileLock entries nodeId)).map fun id => (id, entries)
  | .unlockNotify entries _ fileId _ => some (fileId, entries)
  | _ => none

/-- The bytes reserved in a file stay below `2^64`. -/
def NoOverflow (s : Server) : Action → Prop
  | .resume t choice => ∀ c ∈ s.calls[t]?, ∀ r ∈ s.reserves choice c.await,
    ∀ info ∈ s.blob.filePool[r.1]?, info.size.toNat + totalBytes r.2 < 2 ^ 64
  | _ => True

/-- Calls one after the other, in files without overflow. -/
def Sequenced (s : Server) (a : Action) : Prop := s.Alone a ∧ s.NoOverflow a

instance (s : Server) : (a : Action) → Decidable (s.NoOverflow a)
  | .resume t choice => inferInstanceAs
    (Decidable (∀ c ∈ s.calls[t]?, ∀ r ∈ s.reserves choice c.await,
      ∀ info ∈ s.blob.filePool[r.1]?, info.size.toNat + totalBytes r.2 < 2 ^ 64))
  | .call _ | .execute _ | .tick _ | .receive _ | .restart _ => isTrue trivial

instance (s : Server) (a : Action) : Decidable (s.Sequenced a) :=
  inferInstanceAs (Decidable (s.Alone a ∧ s.NoOverflow a))

variable {s s₁ : Server} {t : CallId} {request : Request} {activity : Activity} {p : Progress}
  {action : Action} {next : CallId}

/-- What a part does to the reserved slices and to the pool. -/
inductive SliceMove (s s₁ : Server) : Activity → Progress → Prop where
  | same {activity : Activity} {p : Progress} (hpool : s.blob.PoolGrows s₁.blob)
      (hp : ∀ a, p = .waits a → a.slices = []) (hr : ∀ o, p ≠ .returns (.offset o)) :
      SliceMove s s₁ activity p
  | reserve {a₀ : Await} {choice : UInt32} {entries : List BlobEntry} {nodeId : String}
      {id : UInt32} {info : FileInfo} {needsCreation : Bool}
      (hreserves : s.reserves choice a₀ = some (id, entries))
      (hinfo : s.blob.filePool[id]? = some info)
      (hpool : s₁.blob.filePool = s.blob.filePool.insert id (info.grow entries)) :
      SliceMove s s₁ (.resume a₀ choice)
        (.waits (.redis (.setSize entries nodeId id needsCreation info.size (info.grow entries)) none))
  | publish {a₀ : Await} {choice : UInt32} {a : Await} (hpool : s₁.blob.filePool = s.blob.filePool)
      (hslices : a.slices = a₀.slices) : SliceMove s s₁ (.resume a₀ choice) (.waits a)
  | created {o : BlobOffset} {toSetInRedis : List (String × Value)} {choice : UInt32}
      (hpool : s₁.blob = s.blob) :
      SliceMove s s₁ (.resume (.redis (.setSlices o toSetInRedis) (some .ok)) choice)
        (.returns (.offset o))

theorem slices_checked {b : BlobStorage} {entries : List BlobEntry} {nodeId : String}
    {keys : List String} (h : b.Checked entries nodeId keys p) :
    (∀ a, p = .waits a → a.slices = []) ∧ ∀ o, p ≠ .returns (.offset o) := by
  cases h <;> exact ⟨by rintro _ ⟨⟩ <;> rfl, by rintro _ ⟨⟩⟩

theorem slices_marked {b : BlobStorage} {fileId : UInt32} {keys : List String}
    {toSet : List (String × Value)} (h : b.Marked fileId keys toSet p) :
    (∀ a, p = .waits a → a.slices = []) ∧ ∀ o, p ≠ .returns (.offset o) := by
  cases h <;> exact ⟨by rintro _ ⟨⟩ <;> rfl, by rintro _ ⟨⟩⟩

theorem slices_startLookup (b : BlobStorage) (key : String) :
    (∀ a, b.startLookup key = .waits a → a.slices = []) ∧
      ∀ o, b.startLookup key ≠ .returns (.offset o) := by
  rw [BlobStorage.startLookup]
  split_ifs
  · exact ⟨by rintro _ ⟨⟩, by rintro _ ⟨⟩⟩
  · cases b.map[key]? with
    | none => exact ⟨by rintro _ ⟨⟩; rfl, by rintro _ ⟨⟩⟩
    | some l =>
      refine ⟨by rintro _ ⟨⟩, fun o h => ?_⟩
      rw [Progress.returns.injEq, BlobStorage.lookupResponse] at h
      split_ifs at h

theorem Part.sliceMove (h : Part s t activity s₁ p)
    (hnew : UInt32.ofNat s.blob.filePool.size ∉ s.blob.filePool) :
    SliceMove s s₁ activity p := by
  cases h with
  | check hp => exact .same (.of_eq rfl) (slices_checked hp).1 (slices_checked hp).2
  | checkAbsent hp => exact .same (.of_eq rfl) (slices_checked hp).1 (slices_checked hp).2
  | checkLoaded hl hp => exact .same (.of_eq rfl) (slices_checked hp).1 (slices_checked hp).2
  | pickNew hlock hsize hfile =>
    subst hfile
    refine .same ?_ (by rintro _ ⟨⟩; rfl) (by rintro _ ⟨⟩)
    intro id info hinfo
    refine ⟨info, ?_, rfl, Nat.le_refl _⟩
    have hne : UInt32.ofNat s.blob.filePool.size ≠ id := by
      rintro rfl
      exact hnew (FiniteMap.mem_iff_getElem?.mpr ⟨info, hinfo⟩)
    exact (FiniteMap.getElem?_insert_of_ne _ _ hne).trans hinfo
  | pickFree hlock hsize hfree hinfo =>
    refine .reserve ?_ hinfo rfl
    simp [reserves, picks, hsize, unlockedFiles_isEmpty hfree hinfo]
  | notified hinfo => exact .reserve rfl hinfo rfl
  | reserve hinfo => exact .reserve rfl hinfo rfl
  | publish needsCreation byteOffset info =>
    rename_i entries nodeId fileId choice
    rw [BlobStorage.publish_eq]
    exact .publish rfl
      (slices_setSlices entries nodeId ⟨fileId, info.fileName, byteOffset, needsCreation⟩ rfl none)
  | created o toSetInRedis => exact .created rfl
  | unlock hlock hnode =>
    rename_i fileId nodeId lock
    have hslices := slices_marked (BlobStorage.markKeys_marked (b := (s.removeLock fileId).blob)
      fileId lock.keys [])
    exact .same (.of_eq (BlobStorage.markKeys_filePool _ _ _)) hslices.1 hslices.2
  | markLoaded hl =>
    rename_i fileId key choice rest toSetInRedis v l
    have hslices := slices_marked (BlobStorage.markKeys_marked (b := s.blob.insertKey key l) fileId
      (key :: rest) toSetInRedis)
    exact .same (.of_eq (BlobStorage.markKeys_filePool _ _ _)) hslices.1 hslices.2
  | unlocked hinfo =>
    exact .same (.of_eq (by rw [abortCleaner_eq]; rfl)) (by rintro _ ⟨⟩) (by rintro _ ⟨⟩)
  | unlockedNone hnone =>
    exact .same (.of_eq (by rw [abortCleaner_eq])) (by rintro _ ⟨⟩) (by rintro _ ⟨⟩)
  | lookup => exact .same (.of_eq rfl) (slices_startLookup _ _).1 (slices_startLookup _ _).2
  | lookupLoaded hl => exact .same (.of_eq rfl) (slices_startLookup _ _).1 (slices_startLookup _ _).2
  | _ => exact .same (.of_eq rfl) (by rintro _ ⟨⟩ <;> rfl) (by rintro _ ⟨⟩)

/-- The slices handed out and those reserved do not overlap, and lie in their files. -/
structure RangesInv (shown : List Event) (s : Server) : Prop where
  pool : s.PoolInv
  within : ∀ x ∈ shown.flatMap Event.slices, x.Within s.blob
  disjoint : (shown.flatMap Event.slices).Pairwise BlobStorageSlice.Disjoint
  reserved : ∀ t a, s.At t a → a.slices.Pairwise BlobStorageSlice.Disjoint ∧
    ∀ y ∈ a.slices, y.Within s.blob ∧ ∀ x ∈ shown.flatMap Event.slices, x.Disjoint y

theorem slices_of_not_redis {a : Await} (h : a.isRedis = false) : a.slices = [] := by
  cases a with
  | redis => cases h
  | _ => rfl

theorem slices_of_not_offset {r : Response} (h : ∀ o, r ≠ .offset o) :
    Event.slices ⟨t, request, r⟩ = [] := by
  cases r with
  | offset o => exact absurd rfl (h o)
  | _ => cases request <;> rfl

theorem poolGrows_grow {b b' : BlobStorage} {id : UInt32} {info : FileInfo}
    {entries : List BlobEntry} (hinfo : b.filePool[id]? = some info)
    (hpool : b'.filePool = b.filePool.insert id (info.grow entries))
    (hlt : info.size.toNat + totalBytes entries < 2 ^ 64) : b.PoolGrows b' := by
  intro id' info' hinfo'
  rw [hpool, FiniteMap.getElem?_insert]
  split_ifs with hid
  · subst hid
    cases hinfo.symm.trans hinfo'
    exact ⟨_, rfl, rfl, by rw [toNat_grow hlt]; omega⟩
  · exact ⟨info', hinfo', rfl, Nat.le_refl _⟩

theorem NoOverflow.lt (h : s.NoOverflow action) (hruns : Runs s action t request activity next)
    {a₀ : Await} {choice : UInt32} (hresume : activity = .resume a₀ choice) {id : UInt32}
    {entries : List BlobEntry} (hreserves : s.reserves choice a₀ = some (id, entries))
    {info : FileInfo} (hinfo : s.blob.filePool[id]? = some info) :
    info.size.toNat + totalBytes entries < 2 ^ 64 := by
  cases hruns with
  | start => cases hresume
  | resume hcall =>
    cases hresume
    exact h _ hcall (id, entries) hreserves info hinfo

theorem Sequenced.poolGrows_part (h : s.Sequenced action)
    (hruns : Runs s action t request activity next) (hmove : SliceMove s s₁ activity p) :
    s.blob.PoolGrows s₁.blob := by
  cases hmove with
  | same hpool => exact hpool
  | reserve hreserves hinfo hpool =>
    exact poolGrows_grow hinfo hpool (h.2.lt hruns rfl hreserves hinfo)
  | publish hpool => exact .of_eq hpool
  | created hpool => exact .of_eq (by rw [hpool])

theorem RangesInv.part {shown : List Event} (hs : RangesInv shown s) (h : s.Sequenced action)
    (hruns : Runs s action t request activity next) (part : Part s t activity s₁ p)
    (hpool : (s₁.after t request next p).PoolInv) :
    RangesInv (shown ++ (({ s₁ with nextCall := next } : Server).settle t request p).2)
      (s₁.after t request next p) := by
  have hmove := part.sliceMove (nextFile_not_mem hs.pool.ids.dense hs.pool.ids.bounded)
  have hgrows := h.poolGrows_part hruns hmove
  have hwithin : ∀ x ∈ shown.flatMap Event.slices, x.Within (s₁.after t request next p).blob := by
    rw [after_blob]
    exact fun x hx => (hs.within x hx).mono hgrows
  have hothers : ∀ t' a, t ≠ t' → s.At t' a → a.slices = [] :=
    fun t' a ht hat => slices_of_not_redis (hruns.others_idle h.1 ht hat)
  -- what is reserved after the part is reserved by its call
  have hreserved (shown' : List Event) (hown : ∀ a, p = .waits a →
      a.slices.Pairwise BlobStorageSlice.Disjoint ∧ ∀ y ∈ a.slices, y.Within s₁.blob ∧
        ∀ x ∈ shown'.flatMap Event.slices, x.Disjoint y) :
      ∀ t' a, (s₁.after t request next p).At t' a → a.slices.Pairwise BlobStorageSlice.Disjoint ∧
        ∀ y ∈ a.slices, y.Within (s₁.after t request next p).blob ∧
          ∀ x ∈ shown'.flatMap Event.slices, x.Disjoint y := by
    rw [after_blob]
    refine part.forall_at (fun t' a ht hat => ?_) fun a hp => ?_
    · rw [hothers t' a ht hat]
      exact ⟨List.Pairwise.nil, by simp⟩
    · rw [Await.slices_deaf]
      exact hown a hp
  cases hmove with
  | same _ hp hr =>
    have hevents : (({ s₁ with nextCall := next } : Server).settle t request p).2.flatMap
        Event.slices = [] := by
      cases p with
      | waits a => rfl
      | returns r =>
        have hslices : Event.slices ⟨t, request, r⟩ = [] :=
          slices_of_not_offset fun o ho => hr o (congrArg Progress.returns ho)
        simp [settle, hslices]
    have hshown : (shown ++ (({ s₁ with nextCall := next } : Server).settle t request p).2).flatMap
        Event.slices = shown.flatMap Event.slices := by
      rw [List.flatMap_append, hevents, List.append_nil]
    refine ⟨hpool, hshown ▸ hwithin, hshown ▸ hs.disjoint, hreserved _ fun a ha => ?_⟩
    rw [hp a ha]
    exact ⟨List.Pairwise.nil, by simp⟩
  | reserve hreserves hinfo hgrown =>
    rename_i a₀ choice entries nodeId id info needsCreation
    have hlt := h.2.lt hruns rfl hreserves hinfo
    rw [settle, List.append_nil]
    refine ⟨hpool, hwithin, hs.disjoint, hreserved _ ?_⟩
    rintro _ ⟨⟩
    refine ⟨batchSlices_disjoint id _ hlt, fun y hy => ?_⟩
    obtain ⟨hfile, hstart, hstop⟩ := mem_batchSlices id _ hlt hy
    refine ⟨⟨info.grow entries, ?_, ?_⟩, fun x hx heq => .inl ?_⟩
    · rw [hfile, hgrown, ExtTreeMap.getElem?_insert_self]
    · rw [toNat_grow hlt]
      exact hstop
    · obtain ⟨info', hinfo', hle⟩ := hs.within x hx
      rw [heq, hfile, hinfo] at hinfo'
      cases hinfo'
      exact hle.trans hstart
  | publish hsame hslices =>
    rw [settle, List.append_nil]
    refine ⟨hpool, hwithin, hs.disjoint, hreserved _ ?_⟩
    rintro _ ⟨⟩
    obtain ⟨hdisjoint, hall⟩ := hs.reserved t _ hruns.at_resume
    rw [Await.slices_deaf, ← hslices] at hdisjoint hall
    refine ⟨hdisjoint, fun y hy => ?_⟩
    exact ⟨(hall y hy).1.mono hgrows, (hall y hy).2⟩
  | created hsame =>
    rename_i o toSetInRedis choice
    obtain ⟨hdisjoint, hall⟩ := hs.reserved t _ hruns.at_resume
    have hevent : Event.slices ⟨t, request, .offset o⟩ =
        (Await.redis (.setSlices o toSetInRedis) (some .ok)).slices := by
      cases hruns.of hs.pool.alone.expected with
      | resume hexpects =>
        cases hexpects with
        | setSlices hkeys hname htexts =>
          rw [htexts, slices_setSlices _ _ _ hname]
          rfl
    rw [Await.slices_deaf, ← hevent] at hdisjoint hall
    have hshown : (shown ++ [(⟨t, request, .offset o⟩ : Event)]).flatMap Event.slices =
        shown.flatMap Event.slices ++ Event.slices ⟨t, request, .offset o⟩ := by
      simp [List.flatMap_append]
    rw [settle]
    refine ⟨hpool, ?_, ?_, hreserved _ (by rintro _ ⟨⟩)⟩
    · rw [hshown]
      intro x hx
      rcases List.mem_append.mp hx with hx | hx
      · exact hwithin x hx
      · rw [after_blob]
        exact (hall x hx).1.mono hgrows
    · rw [hshown]
      exact List.pairwise_append.mpr ⟨hs.disjoint, hdisjoint, fun x hx y hy => (hall y hy).2 x hx⟩

theorem RangesInv.step {shown : List Event} (hs : RangesInv shown s) {a : Action}
    (h : s.Sequenced a) {s' : Server} {es : List Event} (hstep : s.step a = some (s', es)) :
    RangesInv (shown ++ es) s' ∧ s.blob.PoolGrows s'.blob := by
  have hpool := hs.pool.step h.1 hstep
  cases step_of_eq hstep with
  | part hruns part =>
    refine ⟨hs.part h hruns part hpool, ?_⟩
    rw [after_blob]
    exact h.poolGrows_part hruns
      (part.sliceMove (nextFile_not_mem hs.pool.ids.dense hs.pool.ids.bounded))
  | execute hcall =>
    rw [List.append_nil]
    refine ⟨⟨hpool, hs.within, hs.disjoint, forall_at_execute (fun t' a _ => hs.reserved t' a) ?_⟩,
      .of_eq rfl⟩
    rw [Await.slices_redis]
    exact hs.reserved _ _ (at_of_call hcall)
  | expire =>
    rw [List.append_nil]
    exact ⟨⟨hpool, hs.within, hs.disjoint,
      fun t a hat => hs.reserved t a ((at_notifyWaiters _).mp hat)⟩, .of_eq rfl⟩
  | stop =>
    rw [List.append_nil]
    exact ⟨⟨hpool, hs.within, hs.disjoint, hs.reserved⟩, .of_eq rfl⟩
  | receive =>
    rw [List.append_nil]
    exact ⟨⟨hpool, hs.within, hs.disjoint, hs.reserved⟩, .of_eq rfl⟩
  | restart hboot =>
    rw [List.append_nil]
    have hgrows : s.blob.PoolGrows s'.blob := by
      obtain ⟨b, hinit, rfl⟩ := Option.map_eq_some_iff.mp hboot
      intro id info hinfo
      have hsettled : s.Flushed s.redis := .settled fun t k hat => by
        cases RedisIdle.eq h.1 hat rfl
      refine ⟨info, ?_, rfl, Nat.le_refl _⟩
      exact ((hs.pool.files _ hsettled).init_eq hinit id).trans hinfo
    exact ⟨⟨hpool, fun x hx => (hs.within x hx).mono hgrows, hs.disjoint,
      fun t a hat => absurd hat (not_at_boot hboot)⟩, hgrows⟩

theorem rangesInv_boot {config : BlobStorageConfig} (h : boot config ∅ 0 = some s) :
    RangesInv [] s where
  pool := poolInv_boot h
  within := by simp
  disjoint := List.Pairwise.nil
  reserved := fun _ _ hat => absurd hat (not_at_boot h)

theorem rangesInv_of_run {config : BlobStorageConfig} {s₀ s : Server} {es : List Event}
    (hboot : boot config ∅ 0 = some s₀) (hrun : Run Server.step Sequenced s₀ es s) :
    RangesInv es s :=
  hrun.invariantShown (rangesInv_boot hboot) fun hs h hstep => (hs.step h hstep).1

theorem poolGrows_of_run {shown : List Event} (hs : RangesInv shown s) {s' : Server}
    {es : List Event} (hrun : Run Server.step Sequenced s es s') : s.blob.PoolGrows s'.blob := by
  have hend : RangesInv (shown ++ es) s' ∧ s.blob.PoolGrows s'.blob := by
    refine hrun.invariantShown (I := fun es s' => RangesInv (shown ++ es) s' ∧
      s.blob.PoolGrows s'.blob) ⟨by simpa using hs, .of_eq rfl⟩ ?_
    rintro es s₁ a s' es' ⟨hranges, hgrows⟩ h hstep
    obtain ⟨hranges', hgrows'⟩ := hranges.step h hstep
    rw [← List.append_assoc]
    exact ⟨hranges', hgrows.trans hgrows'⟩
  exact hend.2

section Records

/-- The slices of a batch are in the map and in Redis when it is handed out. -/
def Recorded (s : Server) (e : Event) : Prop :=
  ∀ entries nodeId o, e.request = .createAndLock entries nodeId → e.response = .offset o →
    ∀ x ∈ slicesFrom o.fileId o.fileName o.byteOffset entries,
      (∃ l : LockWrapper, s.blob.map[x.1]? = some l ∧ l.slice = x.2) ∧
        ∃ text l, s.redis[x.1]? = some (.string text) ∧ LockWrapper.deserialize text = some l ∧
          l.slice = x.2

/-- The slices that a call writes to Redis are in the map. -/
def Publishing (s : Server) : Prop :=
  ∀ t a, s.At t a → ∀ o toSetInRedis reply, a = .redis (.setSlices o toSetInRedis) reply →
    ∀ e ∈ toSetInRedis, ∃ l : LockWrapper, s.blob.map[e.1]? = some l ∧ e.2 = l.serialize

theorem not_setSlices_checked {b : BlobStorage} {entries : List BlobEntry} {nodeId : String}
    {keys : List String} (h : b.Checked entries nodeId keys p) (o : BlobOffset)
    (items : List (String × Value)) (reply : Option Reply) :
    p ≠ .waits (.redis (.setSlices o items) reply) := by
  cases h <;> rintro ⟨⟩

theorem not_setSlices_marked {b : BlobStorage} {fileId : UInt32} {keys : List String}
    {toSet : List (String × Value)} (h : b.Marked fileId keys toSet p) (o : BlobOffset)
    (items : List (String × Value)) (reply : Option Reply) :
    p ≠ .waits (.redis (.setSlices o items) reply) := by
  cases h <;> rintro ⟨⟩

theorem not_setSlices_startLookup (b : BlobStorage) (key : String) (o : BlobOffset)
    (items : List (String × Value)) (reply : Option Reply) :
    b.startLookup key ≠ .waits (.redis (.setSlices o items) reply) := by
  intro h
  rw [BlobStorage.startLookup] at h
  split_ifs at h
  split at h <;> cases h

/-- Only slices that have been put into the map are written to Redis. -/
theorem Part.publishing (h : Part s t activity s₁ p) (hof : activity.Of request) {o : BlobOffset}
    {items : List (String × Value)} {reply : Option Reply}
    (hp : p = .waits (.redis (.setSlices o items) reply)) :
    ∀ e ∈ items, ∃ l : LockWrapper, s₁.blob.map[e.1]? = some l ∧ e.2 = l.serialize := by
  cases h with
  | check hc => exact absurd hp (not_setSlices_checked hc _ _ _)
  | checkAbsent hc => exact absurd hp (not_setSlices_checked hc _ _ _)
  | checkLoaded hl hc => exact absurd hp (not_setSlices_checked hc _ _ _)
  | unlock hlock hnode =>
    exact absurd hp (not_setSlices_marked (BlobStorage.markKeys_marked _ _ _) _ _ _)
  | markLoaded hl =>
    exact absurd hp (not_setSlices_marked (BlobStorage.markKeys_marked _ _ _) _ _ _)
  | lookup => exact absurd hp (not_setSlices_startLookup _ _ _ _ _)
  | lookupLoaded hl => exact absurd hp (not_setSlices_startLookup _ _ _ _ _)
  | publish needsCreation byteOffset info =>
    rename_i entries nodeId fileId choice
    have hkeys : (keysOf entries).Nodup := by
      cases hof with
      | resume hexpects =>
        cases hexpects
        assumption
    rw [BlobStorage.publish_eq] at hp ⊢
    cases hp
    intro e he
    obtain ⟨w, hw, rfl⟩ := List.mem_map.mp he
    refine ⟨w.2, FiniteMap.getElem?_foldl_insert_of_mem ?_ _ hw, rfl⟩
    rwa [BlobStorage.keys_wrappersFrom]
  | _ => cases hp

theorem Publishing.step (hs : s.Publishing) (hinv : s.AloneInv) {a : Action} (h : s.Alone a)
    {s' : Server} {es : List Event} (hstep : s.step a = some (s', es)) : s'.Publishing := by
  cases step_of_eq hstep with
  | part hruns part =>
    rw [Publishing, after_blob]
    refine part.forall_at (fun t' a ht hat o items reply ha => ?_) fun a hp o items reply ha => ?_
    · cases hruns.others_idle h ht (ha ▸ hat)
    · cases a <;> cases ha
      exact part.publishing (hruns.of hinv.expected) hp
  | execute hcall =>
    refine forall_at_execute (fun t' a _ hat => hs t' a hat) ?_
    rintro o items reply ⟨⟩
    exact hs _ _ (at_of_call hcall) o items none rfl
  | expire => exact fun t a hat => hs t a ((at_notifyWaiters _).mp hat)
  | stop => exact hs
  | receive => exact hs
  | restart hboot => exact fun t a hat => absurd hat (not_at_boot hboot)

theorem mem_wrappersFrom {entries : List BlobEntry} {nodeId fileName : String} {fileId : UInt32}
    {byteOffset : UInt64} {info : FileInfo} (hname : info.fileName = fileName)
    {x : String × BlobStorageSlice} (hx : x ∈ slicesFrom fileId fileName byteOffset entries) :
    (x.1, (⟨x.2, false, some nodeId⟩ : LockWrapper)) ∈
      BlobStorage.wrappersFrom entries nodeId fileId byteOffset info :=
  List.mem_map.mpr ⟨x, hname ▸ hx, rfl⟩

/-- The text that Redis has for a key of an executed batch with distinct keys. -/
theorem setMultiple_of_mem {r : Redis} {items : List (String × Value)} {key : String} {text : Value}
    (hkeys : (items.map Prod.fst).Nodup) (hmem : (key, text) ∈ items) :
    (r.setMultiple items)[key]? = some (.string text) := by
  rcases r.getElem?_setMultiple items key with ⟨-, hnot⟩ | ⟨text', hmem', heq⟩
  · exact absurd (List.mem_map_of_mem hmem) hnot
  · cases List.inj_on_of_nodup_map hkeys hmem hmem' rfl
    exact heq

theorem recorded_of_created {o : BlobOffset} {toSetInRedis : List (String × Value)}
    (hinv : s.AloneInv) (hs : s.Publishing)
    (hat : s.At t (.redis (.setSlices o toSetInRedis) (some .ok)))
    (hof : request.Expects (.redis (.setSlices o toSetInRedis) (some .ok))) :
    s.Recorded ⟨t, request, .offset o⟩ := by
  rintro entries nodeId _ hrequest ⟨⟩ x hx
  cases hof with
  | setSlices hkeys hname htexts =>
    cases hrequest
    have hmem : (x.1, (⟨x.2, false, some nodeId⟩ : LockWrapper).serialize) ∈ toSetInRedis := by
      rw [htexts]
      exact List.mem_map.mpr ⟨_, mem_wrappersFrom hname hx, rfl⟩
    have hnodup : (toSetInRedis.map Prod.fst).Nodup := by
      rw [htexts, List.map_map]
      exact (BlobStorage.keys_wrappersFrom entries nodeId o.fileId o.byteOffset _).symm ▸ hkeys
    constructor
    · obtain ⟨l, hl, htext⟩ := hs t _ hat o toSetInRedis _ rfl _ hmem
      have hread := congrArg LockWrapper.deserialize htext
      rw [LockWrapper.deserialize_serialize, LockWrapper.deserialize_serialize] at hread
      simp only [Option.some.injEq, LockWrapper.mk.injEq] at hread
      exact ⟨l, hl, hread.1.symm⟩
    · obtain ⟨r, hreply, hredis⟩ := hinv.answered t _ hat _ _ rfl
      refine ⟨_, _, ?_, LockWrapper.deserialize_serialize ⟨x.2, false, some nodeId⟩, rfl⟩
      rw [← hredis, Continuation.command, Redis.execute]
      rw [if_neg (by simpa using List.ne_nil_of_mem hmem)]
      exact setMultiple_of_mem hnodup hmem

theorem recorded_of_step {shown : List Event} (hs : RangesInv shown s) (hpub : s.Publishing)
    {a : Action} {s' : Server} {es : List Event} (hstep : s.step a = some (s', es)) :
    ∀ e ∈ es, s'.Recorded e := by
  cases step_of_eq hstep with
  | part hruns part =>
    rename_i t request activity next s₁ p
    cases p with
    | waits a => simp [settle]
    | returns r =>
      intro e he
      cases List.mem_singleton.mp he
      intro entries nodeId o hrequest hresponse
      dsimp only at hresponse
      subst hresponse
      have hredis := part.redis_eq
      cases part.sliceMove (nextFile_not_mem hs.pool.ids.dense hs.pool.ids.bounded) with
      | same _ _ hr => exact absurd rfl (hr o)
      | created hsame =>
        have hrecorded : s.Recorded ⟨t, request, .offset o⟩ := by
          cases hruns.of hs.pool.alone.expected with
          | resume hexpects =>
            exact recorded_of_created hs.pool.alone hpub hruns.at_resume hexpects
        rw [after_blob, after_redis, hsame, hredis]
        exact hrecorded entries nodeId o hrequest rfl
  | _ => simp

end Records

/-- In a sequence of calls, lock expiries and restarts at rest, all slices ever handed out are
disjoint and lie in their files, files never shrink, and the slices of a batch are recorded as they
follow each other from the returned offset on. -/
theorem slices_of_run {config : BlobStorageConfig} {s₀ s : Server} {es : List Event}
    (hboot : boot config ∅ 0 = some s₀) (hrun : Run Server.step Sequenced s₀ es s) :
    (es.flatMap Event.slices).Pairwise BlobStorageSlice.Disjoint ∧
      (∀ x ∈ es.flatMap Event.slices, x.Within s.blob) ∧
      (∀ s' es', Run Server.step Sequenced s es' s' → s.blob.PoolGrows s'.blob) ∧
      ∀ a s' es', s.Sequenced a → s.step a = some (s', es') → ∀ e ∈ es', s'.Recorded e := by
  have hs := rangesInv_of_run hboot hrun
  refine ⟨hs.disjoint, hs.within, fun s' es' hrun' => poolGrows_of_run hs hrun', ?_⟩
  intro a s' es' _ hstep
  refine recorded_of_step hs ?_ hstep
  have hboth : s.AloneInv ∧ s.Publishing := by
    refine hrun.invariant (I := fun s => s.AloneInv ∧ s.Publishing)
      ⟨aloneInv_boot hboot, fun t a hat => absurd hat (not_at_boot hboot)⟩ ?_
    rintro s a s' es ⟨hinv, hpub⟩ h hstep
    exact ⟨hinv.step h.1 hstep, hpub.step hinv h.1 hstep⟩
  exact hboth.2

/-- A creation and its unlock, a restart, and another creation in the same file. -/
def createdTwice : List Action :=
  [.call (.createAndLock [⟨"a", 2⟩, ⟨"b", 3⟩] "node"), .execute 0, .resume 0 0, .execute 0,
    .resume 0 0, .resume 0 0, .execute 0, .resume 0 0, .execute 0, .resume 0 0, .execute 0,
    .resume 0 0, .call (.createUnlock 0 "node"), .execute 1, .resume 1 0, .restart ⟨1⟩,
    .call (.createAndLock [⟨"c", 4⟩] "node"), .execute 2, .resume 2 0, .resume 2 0, .execute 2,
    .resume 2 0, .execute 2, .resume 2 0]

theorem slices_of_run_createdTwice : ∃ s₀ es s, boot ⟨1⟩ ∅ 0 = some s₀ ∧
    Run Server.step Sequenced s₀ es s ∧
      es.flatMap Event.slices = [⟨0, "blob_0.bin", 0, 2⟩, ⟨0, "blob_0.bin", 2, 3⟩,
        ⟨0, "blob_0.bin", 5, 4⟩] ∧
      (es.flatMap Event.slices).Pairwise BlobStorageSlice.Disjoint ∧
        ∀ x ∈ es.flatMap Event.slices, x.Within s.blob := by
  obtain ⟨s₀, hboot, hexec⟩ := Option.bind_eq_some_iff.mp
    (show ((boot ⟨1⟩ ∅ 0).bind fun s₀ => (exec Server.step Sequenced s₀ createdTwice).map
      fun r => r.2.flatMap Event.slices) = some [⟨0, "blob_0.bin", 0, 2⟩, ⟨0, "blob_0.bin", 2, 3⟩,
        ⟨0, "blob_0.bin", 5, 4⟩] by decide +kernel)
  obtain ⟨s, es, hrun, hslices⟩ := exists_run_of_exec hexec
  have h := slices_of_run hboot hrun
  exact ⟨s₀, es, s, hboot, hrun, hslices, h.1, h.2.1⟩

end Server

end NpmFollower.BlobIdxServer
