import NpmFollower.Library.Folds
import NpmFollower.DatabaseExporting.Chunks

/-! # The rows of a commit

A commit records the pieces that the staged changes were cut into, in their
order: the creates in one batch, every append in a batch of its own. For every
path this is what a file of its committed size can take.
-/

namespace NpmFollower.DatabaseExporting

open Tiling

/-- What a commit may hold for a file with the given committed size, and the size it leaves. -/
inductive Fits : Option ℤ → ℤ → List Extent → Prop where
  | create (path : Path) (n : ℤ) {size : ℤ} {appends : List Extent}
      (positive : ∀ e ∈ appends, e.type = .append ∧ 0 < e.numBytes)
      (tiles : ExtentTiles n size appends) : Fits none size (⟨path, .create, 0, n⟩ :: appends)
  | append {committed size : ℤ} {appends : List Extent} (nonempty : appends ≠ [])
      (positive : ∀ e ∈ appends, e.type = .append ∧ 0 < e.numBytes)
      (tiles : ExtentTiles committed size appends) : Fits (some committed) size appends

theorem Fits.nonempty {committed : Option ℤ} {size : ℤ} {es : List Extent}
    (h : Fits committed size es) : es ≠ [] := by
  cases h with
  | create => simp
  | append hne => exact hne

/-- The rows follow one another from the committed size, or from the beginning. -/
theorem Fits.tiles {committed : Option ℤ} {size : ℤ} {es : List Extent}
    (h : Fits committed size es) : ExtentTiles (committed.getD 0) size es := by
  cases h with
  | create path n positive tiles =>
    apply Tiles.cons (⟨path, .create, 0, n⟩ : Extent)
    simpa using tiles
  | append hne positive tiles => exact tiles

theorem Fits.lt {committed size : ℤ} {es : List Extent} (h : Fits (some committed) size es) :
    committed < size := by
  cases h with
  | append hne positive tiles => exact tiles.lt hne fun e he => (positive e he).2

theorem Fits.numBytes_pos {committed : Option ℤ} {size : ℤ} {es : List Extent}
    (h : Fits committed size es) {e : Extent} (he : e ∈ es) (happend : e.type = .append) :
    0 < e.numBytes := by
  cases h with
  | create path n positive tiles =>
    rcases List.mem_cons.mp he with rfl | he
    · cases happend
    · exact (positive e he).2
  | append hne positive tiles => exact (positive e he).2

/-- A staged change that goes on from the committed size of its path. -/
def StagedChange.Continues (s : StagedChange) : Option ℤ → Prop
  | none => s.type = .create ∧ s.startOffset = 0
  | some size => s.type = .append ∧ s.startOffset = size ∧ 0 < s.numBytes

instance (s : StagedChange) (size : Option ℤ) : Decidable (s.Continues size) := by
  cases size <;> unfold StagedChange.Continues <;> infer_instance

section Pieces

variable (maxSize : ℤ) (staged : List StagedChange)

def stagedCreates : List StagedChange := staged.filter (·.type = .create)

def stagedAppends : List StagedChange := staged.filter (·.type = .append)

/-- The list that step 3b starts from. -/
def appendQueue : List StagedChange :=
  stagedAppends staged ++ (stagedCreates staged).filterMap (createRemainder maxSize)

/-- The creates and the appends that are packed, in this order. -/
def packedCreates : List StagedChange := (stagedCreates staged).map (·.cut maxSize)

def packedAppends : List StagedChange :=
  splitAppends maxSize (splitFuel (appendQueue maxSize staged)) (appendQueue maxSize staged)

end Pieces

section Queue

variable {maxSize : ℤ} {staged : List StagedChange} {s t : StagedChange}

theorem mem_stagedCreates : s ∈ stagedCreates staged ↔ s ∈ staged ∧ s.type = .create := by
  simp [stagedCreates]

theorem mem_stagedAppends : s ∈ stagedAppends staged ↔ s ∈ staged ∧ s.type = .append := by
  simp [stagedAppends]

theorem createRemainder_eq_some :
    createRemainder maxSize s = some t ↔ s.numBytes > maxSize ∧ t = s.remainder maxSize maxSize := by
  unfold createRemainder
  split_ifs with h
  · simp [h, eq_comm]
  · simp [h]

theorem mem_appendQueue : t ∈ appendQueue maxSize staged ↔ t ∈ stagedAppends staged ∨
    ∃ s ∈ stagedCreates staged, s.numBytes > maxSize ∧ t = s.remainder maxSize maxSize := by
  simp only [appendQueue, List.mem_append, List.mem_filterMap, createRemainder_eq_some]

theorem filterMap_createRemainder (creates : List StagedChange) :
    creates.filterMap (createRemainder maxSize) =
      (creates.filter (·.numBytes > maxSize)).map (·.remainder maxSize maxSize) := by
  induction creates with
  | nil => rfl
  | cons s creates ih =>
    by_cases h : s.numBytes > maxSize <;> simp [createRemainder, h] <;> exact ih

/-- Distinct staged changes are about distinct files. -/
theorem eq_of_path_eq (hnodup : (staged.map StagedChange.path).Nodup) (hs : s ∈ staged)
    (ht : t ∈ staged) (h : s.path = t.path) : s = t :=
  List.inj_on_of_nodup_map hnodup hs ht h

theorem nodup_filter_paths (hnodup : (staged.map StagedChange.path).Nodup)
    (p : StagedChange → Bool) : ((staged.filter p).map StagedChange.path).Nodup :=
  hnodup.sublist (List.filter_sublist.map _)

theorem nodup_packedCreates (hnodup : (staged.map StagedChange.path).Nodup) :
    ((packedCreates maxSize staged).map StagedChange.path).Nodup := by
  have h : (packedCreates maxSize staged).map StagedChange.path =
      (stagedCreates staged).map StagedChange.path := by
    simp [packedCreates, Function.comp_def]
  rw [h]
  exact nodup_filter_paths hnodup _

theorem nodup_appendQueue (hnodup : (staged.map StagedChange.path).Nodup) :
    ((appendQueue maxSize staged).map StagedChange.path).Nodup := by
  rw [appendQueue, List.map_append]
  apply List.Nodup.append
  · exact nodup_filter_paths hnodup _
  · rw [filterMap_createRemainder, List.map_map]
    exact nodup_filter_paths (nodup_filter_paths hnodup _) _
  · intro path happend hcreate
    obtain ⟨s, hs, rfl⟩ := List.mem_map.mp happend
    obtain ⟨r, hr, hpath⟩ := List.mem_map.mp hcreate
    obtain ⟨t, ht, hrem⟩ := List.mem_filterMap.mp hr
    obtain ⟨-, rfl⟩ := createRemainder_eq_some.mp hrem
    rw [mem_stagedAppends] at hs
    rw [mem_stagedCreates] at ht
    have heq : t = s := eq_of_path_eq hnodup ht.1 hs.1 hpath
    rw [heq, hs.2] at ht
    exact absurd ht.2 (by decide)

/-- What the staged appends and the remainders of creates have, every packed append has. -/
theorem packedAppends_forall {P : StagedChange → Prop} (hstaged : ∀ s ∈ stagedAppends staged, P s)
    (hcreate : ∀ s ∈ stagedCreates staged, s.numBytes > maxSize → P (s.remainder maxSize maxSize))
    (hcut : ∀ s, P s → s.numBytes > maxSize → P (s.cut maxSize))
    (hrest : ∀ s, P s → s.numBytes > maxSize → P (s.remainder maxSize (s.startOffset + maxSize))) :
    ∀ t ∈ packedAppends maxSize staged, P t := by
  apply splitAppends_forall hcut hrest
  intro t ht
  rcases mem_appendQueue.mp ht with ht | ⟨s, hs, hlarge, rfl⟩
  · exact hstaged t ht
  · exact hcreate s hs hlarge

theorem packedAppends_append :
    ∀ t ∈ packedAppends maxSize staged, t.type = .append := by
  apply packedAppends_forall
  · intro s hs
    exact (mem_stagedAppends.mp hs).2
  · intro s _ _
    rfl
  · intro s hs _
    rwa [cut_type]
  · intro s _ _
    rfl

theorem packedAppends_pos (hmax : 0 < maxSize)
    (hstaged : ∀ s ∈ stagedAppends staged, 0 < s.numBytes) :
    ∀ t ∈ packedAppends maxSize staged, 0 < t.numBytes := by
  apply packedAppends_forall hstaged
  · intro s _ hlarge
    simp only [StagedChange.remainder]
    omega
  · intro s hs hlarge
    rw [cut_numBytes]
    omega
  · intro s hs hlarge
    simp only [StagedChange.remainder]
    omega

/-- The pieces of a staged change, among all that are packed, fit its path. -/
theorem packed_fits {committed : Path → Option ℤ} (hmax : 0 < maxSize)
    (hnodup : (staged.map StagedChange.path).Nodup)
    (hcontinues : ∀ s ∈ staged, s.Continues (committed s.path)) (hs : s ∈ staged) :
    Fits (committed s.path) (s.startOffset + s.numBytes)
      (extentsOf s.path (packedCreates maxSize staged ++ packedAppends maxSize staged)) := by
  have hpositive : ∀ e ∈ extentsOf s.path (packedAppends maxSize staged),
      e.type = .append ∧ 0 < e.numBytes := by
    intro e he
    obtain ⟨t, ht, rfl⟩ := List.mem_map.mp (List.mem_of_mem_filter he)
    refine ⟨packedAppends_append t ht, packedAppends_pos hmax ?_ t ht⟩
    intro r hr
    rw [mem_stagedAppends] at hr
    have hr' := hcontinues r hr.1
    cases hc : committed r.path with
    | none =>
      rw [hc] at hr'
      exact absurd (hr'.1.symm.trans hr.2) (by decide)
    | some size =>
      rw [hc] at hr'
      exact hr'.2.2
  have hs' := hcontinues s hs
  rw [extentsOf_append]
  cases hc : committed s.path with
  | none =>
    rw [hc] at hs'
    obtain ⟨htype, hstart⟩ := hs'
    have hcreate : s ∈ stagedCreates staged := mem_stagedCreates.mpr ⟨hs, htype⟩
    have hhead : extentsOf s.path (packedCreates maxSize staged) = [(s.cut maxSize).extent] := by
      have hmem : s.cut maxSize ∈ packedCreates maxSize staged := List.mem_map_of_mem hcreate
      have h := extentsOf_of_nodup (nodup_packedCreates hnodup) hmem
      rwa [cut_path] at h
    have hextent : (s.cut maxSize).extent = ⟨s.path, .create, 0, min s.numBytes maxSize⟩ := by
      simp [StagedChange.extent, cut_numBytes, htype, hstart]
    rw [hhead, hextent, List.singleton_append, hstart, zero_add]
    apply Fits.create _ _ hpositive
    by_cases hlarge : s.numBytes > maxSize
    · have hmem : s.remainder maxSize maxSize ∈ appendQueue maxSize staged :=
        mem_appendQueue.mpr (Or.inr ⟨s, hcreate, hlarge, rfl⟩)
      have htiles : ExtentTiles maxSize (maxSize + (s.numBytes - maxSize))
          (extentsOf s.path (packedAppends maxSize staged)) :=
        splitAppends_tiles (nodup_appendQueue hnodup) hmem
      rw [add_sub_cancel] at htiles
      rwa [min_eq_right (le_of_lt hlarge)]
    · have habsent : s.path ∉ (appendQueue maxSize staged).map StagedChange.path := by
        intro hmem
        obtain ⟨t, ht, hpath⟩ := List.mem_map.mp hmem
        rcases mem_appendQueue.mp ht with ht | ⟨r, hr, hrlarge, rfl⟩
        · rw [mem_stagedAppends] at ht
          have heq : t = s := eq_of_path_eq hnodup ht.1 hs hpath
          rw [heq, htype] at ht
          exact absurd ht.2 (by decide)
        · have heq : r = s := eq_of_path_eq hnodup (mem_stagedCreates.mp hr).1 hs hpath
          rw [heq] at hrlarge
          exact hlarge hrlarge
      have hnone : extentsOf s.path (packedAppends maxSize staged) = [] := splitAppends_absent habsent
      rw [hnone, min_eq_left (not_lt.mp hlarge)]
      exact .nil _
  | some size =>
    rw [hc] at hs'
    obtain ⟨htype, hstart, hpos⟩ := hs'
    have hmem : s ∈ appendQueue maxSize staged :=
      mem_appendQueue.mpr (Or.inl (mem_stagedAppends.mpr ⟨hs, htype⟩))
    have hnone : extentsOf s.path (packedCreates maxSize staged) = [] := by
      apply extentsOf_absent
      intro hmem'
      obtain ⟨t, ht, hpath⟩ := List.mem_map.mp hmem'
      obtain ⟨r, hr, rfl⟩ := List.mem_map.mp ht
      rw [cut_path] at hpath
      rw [mem_stagedCreates] at hr
      have heq : r = s := eq_of_path_eq hnodup hr.1 hs hpath
      rw [heq, htype] at hr
      exact absurd hr.2 (by decide)
    have htiles : ExtentTiles s.startOffset (s.startOffset + s.numBytes)
        (extentsOf s.path (packedAppends maxSize staged)) :=
      splitAppends_tiles (nodup_appendQueue hnodup) hmem
    rw [hnone, List.nil_append]
    apply Fits.append _ hpositive
    · rwa [hstart] at htiles ⊢
    · intro hnil
      rw [hnil] at htiles
      have := htiles.of_nil
      omega

end Queue

section Build

variable {maxSize : ℤ} {commitId : CommitId} {staged : List StagedChange} {p p' : Packing}

/-- The two folds that a build that returns has gone through. -/
theorem buildChanges_ok (h : buildChanges maxSize commitId staged = .ok p) :
    (∀ s ∈ stagedCreates staged, s.startOffset = 0) ∧ ∃ p₁ p₂,
      (packedCreates maxSize staged).foldlM (packCreate maxSize commitId) Packing.empty = .ok p₁ ∧
      (packedAppends maxSize staged).foldlM (packAppend maxSize commitId)
        (p₁.endCreates (packedCreates maxSize staged)) = .ok p₂ ∧ p = p₂.finish := by
  unfold buildChanges at h
  dsimp only at h
  split_ifs at h with hassert
  · obtain ⟨_, herror, _⟩ := Folds.ok_of_bind h
    cases herror
  · obtain ⟨p₁, h₁, h⟩ := Folds.ok_of_bind h
    obtain ⟨p₂, h₂, h⟩ := Folds.ok_of_bind h
    cases h
    refine ⟨?_, p₁, p₂, h₁, h₂, rfl⟩
    intro s hs
    by_contra hne
    apply hassert
    rw [List.any_eq_true]
    exact ⟨s, hs, by simpa using hne⟩

/-- The rows that record some pieces, with batches that keep their order. -/
structure Records (commitId : CommitId) (pieces : List StagedChange) (rows : List CommitChange) :
    Prop where
  extents : rows.map CommitChange.extent = pieces.map StagedChange.extent
  commit : ∀ c ∈ rows, c.commitId = commitId
  ordered : rows.Pairwise fun c d => c.batchId ≤ d.batchId ∧ (c.path = d.path → c.batchId < d.batchId)

theorem records_nil : Records commitId [] [] := ⟨rfl, by simp, .nil⟩

theorem Records.snoc {pieces : List StagedChange} {rows : List CommitChange} {s : StagedChange}
    {row : CommitChange} (h : Records commitId pieces rows) (hextent : row.extent = s.extent)
    (hcommit : row.commitId = commitId)
    (hbatch : ∀ c ∈ rows, c.batchId ≤ row.batchId ∧ (c.path = row.path → c.batchId < row.batchId)) :
    Records commitId (pieces ++ [s]) (rows ++ [row]) := by
  constructor
  · rw [List.map_append, List.map_append, h.extents]
    simp [hextent]
  · intro c hc
    rcases List.mem_append.mp hc with hc | hc
    · exact h.commit c hc
    · rwa [List.mem_singleton.mp hc]
  · rw [List.pairwise_append]
    refine ⟨h.ordered, List.pairwise_singleton _ _, ?_⟩
    intro c hc d hd
    rw [List.mem_singleton.mp hd]
    exact hbatch c hc

theorem Records.path_mem {pieces : List StagedChange} {rows : List CommitChange}
    (h : Records commitId pieces rows) {c : CommitChange} (hc : c ∈ rows) :
    c.path ∈ pieces.map StagedChange.path := by
  have hmem : c.extent ∈ pieces.map StagedChange.extent := h.extents ▸ List.mem_map_of_mem hc
  obtain ⟨s, hs, heq⟩ := List.mem_map.mp hmem
  have hpath : s.path = c.path := congrArg Extent.path heq
  exact hpath ▸ List.mem_map_of_mem hs

theorem packCreate_rows {s : StagedChange} (h : packCreate maxSize commitId p s = .ok p') :
    p'.allCommitChanges = p.allCommitChanges ++
        [s.commitChange commitId p.currentBatchId .create ⟨commitId, p.blobId⟩ 0] ∧
      p'.currentBatchId = p.currentBatchId := by
  unfold packCreate at h
  split_ifs at h
  cases h
  exact ⟨rfl, rfl⟩

theorem makeRoom_rows {s : StagedChange} (h : p.makeRoom maxSize commitId s = .ok p') :
    p'.allCommitChanges = p.allCommitChanges ∧ p'.currentBatchId = p.currentBatchId := by
  unfold Packing.makeRoom at h
  split at h
  · cases h
    exact ⟨rfl, rfl⟩
  · split_ifs at h <;> cases h <;> exact ⟨rfl, rfl⟩

theorem packAppend_rows {s : StagedChange} (h : packAppend maxSize commitId p s = .ok p') :
    ∃ blobName blobOffset, p'.allCommitChanges = p.allCommitChanges ++
        [s.commitChange commitId p.currentBatchId .append blobName blobOffset] ∧
      p'.currentBatchId = p.currentBatchId + 1 := by
  unfold packAppend at h
  cases hroom : p.makeRoom maxSize commitId s with
  | error e => simp [hroom] at h
  | ok q =>
    obtain ⟨hrows, hbatch⟩ := makeRoom_rows hroom
    rw [hroom] at h
    dsimp only at h
    split at h
    · cases h
    · cases h
      rename_i blobName _
      refine ⟨blobName, q.currentBlobSize, ?_, ?_⟩
      · simp only [Packing.write, hrows, hbatch]
      · simp only [Packing.write, hbatch]

/-- The creates are recorded in the first batch. -/
theorem packCreates_records {creates : List StagedChange} (htype : ∀ s ∈ creates, s.type = .create)
    (hnodup : (creates.map StagedChange.path).Nodup)
    (h : creates.foldlM (packCreate maxSize commitId) Packing.empty = .ok p) :
    Records commitId creates p.allCommitChanges ∧ p.currentBatchId = 0 ∧
      ∀ c ∈ p.allCommitChanges, c.batchId = 0 := by
  refine Folds.foldlM_ok (I := fun pieces p => Records commitId pieces p.allCommitChanges ∧
    p.currentBatchId = 0 ∧ ∀ c ∈ p.allCommitChanges, c.batchId = 0) h ?_ ?_
  · exact ⟨records_nil, rfl, by simp [Packing.empty]⟩
  · rintro done s rest q q' hl ⟨hrecords, hcurrent, hbatch⟩ hpack
    obtain ⟨hrows, hsame⟩ := packCreate_rows hpack
    rw [hrows, hsame, hcurrent]
    refine ⟨?_, rfl, ?_⟩
    · apply hrecords.snoc
      · simp [CommitChange.extent, StagedChange.extent, StagedChange.commitChange,
          htype s (by simp [hl])]
      · rfl
      · intro c hc
        refine ⟨by simp [hbatch c hc], fun hpath => ?_⟩
        have hmem := hrecords.path_mem hc
        rw [hl, List.map_append, List.map_cons, List.nodup_append] at hnodup
        exact absurd rfl (hnodup.2.2 _ hmem _ (hpath ▸ List.mem_cons_self))
    · intro c hc
      rcases List.mem_append.mp hc with hc | hc
      · exact hbatch c hc
      · rw [List.mem_singleton.mp hc]
        rfl

/-- Every append is recorded in a batch of its own. -/
theorem packAppends_records {pieces appends : List StagedChange}
    (htype : ∀ s ∈ appends, s.type = .append) (hp : Records commitId pieces p.allCommitChanges)
    (hbatch : ∀ c ∈ p.allCommitChanges, c.batchId < p.currentBatchId)
    (h : appends.foldlM (packAppend maxSize commitId) p = .ok p') :
    Records commitId (pieces ++ appends) p'.allCommitChanges := by
  suffices hI : Records commitId (pieces ++ appends) p'.allCommitChanges ∧
      ∀ c ∈ p'.allCommitChanges, c.batchId < p'.currentBatchId from hI.1
  refine Folds.foldlM_ok (I := fun done p => Records commitId (pieces ++ done) p.allCommitChanges ∧
    ∀ c ∈ p.allCommitChanges, c.batchId < p.currentBatchId) h ?_ ?_
  · rw [List.append_nil]
    exact ⟨hp, hbatch⟩
  · rintro done s rest q q' hl ⟨hrecords, hlt⟩ hpack
    obtain ⟨blobName, blobOffset, hrows, hnext⟩ := packAppend_rows hpack
    rw [hrows, hnext, ← List.append_assoc]
    constructor
    · apply hrecords.snoc
      · simp [CommitChange.extent, StagedChange.extent, StagedChange.commitChange,
          htype s (by simp [hl])]
      · rfl
      · intro c hc
        have := hlt c hc
        exact ⟨le_of_lt this, fun _ => this⟩
    · intro c hc
      rcases List.mem_append.mp hc with hc | hc
      · have := hlt c hc
        omega
      · rw [List.mem_singleton.mp hc]
        exact Nat.lt_succ_self _

/-- A commit's rows record the pieces that its staged changes were cut into. -/
theorem buildChanges_records (hnodup : (staged.map StagedChange.path).Nodup)
    (h : buildChanges maxSize commitId staged = .ok p) :
    Records commitId (packedCreates maxSize staged ++ packedAppends maxSize staged)
      p.allCommitChanges := by
  obtain ⟨-, p₁, p₂, hcreates, happends, rfl⟩ := buildChanges_ok h
  have hfinish : p₂.finish.allCommitChanges = p₂.allCommitChanges := by
    unfold Packing.finish
    split
    · rfl
    · split_ifs <;> rfl
  rw [hfinish]
  have hcreate : ∀ s ∈ packedCreates maxSize staged, s.type = .create := by
    intro s hs
    obtain ⟨t, ht, rfl⟩ := List.mem_map.mp hs
    rw [cut_type]
    exact (mem_stagedCreates.mp ht).2
  obtain ⟨hrecords, hcurrent, hbatch⟩ :=
    packCreates_records hcreate (nodup_packedCreates hnodup) hcreates
  apply packAppends_records packedAppends_append _ _ happends
  · unfold Packing.endCreates
    split_ifs <;> exact hrecords
  · intro c hc
    have hne : packedCreates maxSize staged ≠ [] := by
      intro hnil
      unfold Packing.endCreates at hc
      rw [if_pos hnil] at hc
      have := hrecords.path_mem hc
      rw [hnil] at this
      exact List.not_mem_nil this
    unfold Packing.endCreates at hc ⊢
    rw [if_neg hne] at hc ⊢
    have hzero : c.batchId = 0 := hbatch c hc
    dsimp only
    omega

/-- What a build records for a path is what its committed size can take. -/
theorem buildChanges_fits {committed : Path → Option ℤ} (hmax : 0 < maxSize)
    (hnodup : (staged.map StagedChange.path).Nodup)
    (hcontinues : ∀ s ∈ staged, s.Continues (committed s.path))
    (h : buildChanges maxSize commitId staged = .ok p) {s : StagedChange} (hs : s ∈ staged) :
    Fits (committed s.path) (s.startOffset + s.numBytes)
      ((p.allCommitChanges.map CommitChange.extent).filter (·.path = s.path)) := by
  rw [(buildChanges_records hnodup h).extents]
  exact packed_fits hmax hnodup hcontinues hs

/-- A build records changes of staged paths only. -/
theorem buildChanges_path_mem (hnodup : (staged.map StagedChange.path).Nodup)
    (h : buildChanges maxSize commitId staged = .ok p) {c : CommitChange}
    (hc : c ∈ p.allCommitChanges) : c.path ∈ staged.map StagedChange.path := by
  have hmem := (buildChanges_records hnodup h).path_mem hc
  obtain ⟨t, ht, hpath⟩ := List.mem_map.mp hmem
  rw [← hpath]
  rcases List.mem_append.mp ht with ht | ht
  · obtain ⟨s, hs, rfl⟩ := List.mem_map.mp ht
    rw [cut_path]
    exact List.mem_map_of_mem (mem_stagedCreates.mp hs).1
  · apply packedAppends_forall (P := fun t => t.path ∈ staged.map StagedChange.path) _ _ _ _ t ht
    · intro s hs
      exact List.mem_map_of_mem (mem_stagedAppends.mp hs).1
    · intro s hs _
      exact (List.mem_map_of_mem (mem_stagedCreates.mp hs).1 : s.path ∈ staged.map _)
    · intro s hs _
      rwa [cut_path]
    · intro s hs _
      exact hs

end Build

end NpmFollower.DatabaseExporting
