import NpmFollower.DatabaseExporting.ApplyCommit
import NpmFollower.DatabaseExporting.UploadRuns

/-! # The blobs of a commit

A blob is uploaded as the concatenation of its sources, and its operation lists them in the
order of the changes that use it. So every change finds its part of the file at its offset,
a create has a blob of its own, and no blob is there for nothing.
-/

namespace NpmFollower.DatabaseExporting

/-- A staged change is about the bytes of its file that it would read. -/
structure StagedChange.Sourced (data : Path) (disk : Disk) (s : StagedChange) : Prop where
  backingPath : s.backingPath = (data.join s.path).normpath
  backingOffset : s.backingOffset = s.startOffset
  readable : s.readSource.Readable disk

namespace StagedChange.Sourced

variable {data : Path} {disk : Disk} {maxSize : ℤ} {s : StagedChange}

theorem cut (h : s.Sourced data disk) (hmax : 0 < maxSize) : (s.cut maxSize).Sourced data disk := by
  obtain ⟨content, hfile, hlen⟩ := h.readable.file
  have hoffset := h.readable.offset_nonneg
  have hbytes := h.readable.numBytes_nonneg
  simp only [readSource] at hfile hlen hoffset hbytes
  refine ⟨by simpa using h.backingPath, by simpa using h.backingOffset, ?_, ?_, content, ?_, ?_⟩
  · simpa [readSource] using hoffset
  · simp only [readSource, cut_numBytes]
    omega
  · simpa [readSource] using hfile
  · simp only [readSource, cut_numBytes, cut_backingOffset]
    omega

theorem remainder (h : s.Sourced data disk) (hmax : 0 < maxSize) (hlarge : s.numBytes > maxSize)
    {start : ℤ} (hstart : start = s.startOffset + maxSize) :
    (s.remainder maxSize start).Sourced data disk := by
  obtain ⟨content, hfile, hlen⟩ := h.readable.file
  have hoffset := h.readable.offset_nonneg
  have hbacking := h.backingOffset
  simp only [readSource] at hfile hlen hoffset
  refine ⟨h.backingPath, ?_, ?_, ?_, content, hfile, ?_⟩ <;>
    simp only [readSource, StagedChange.remainder] <;> omega

end StagedChange.Sourced

section Pieces

variable {data : Path} {disk : Disk} {maxSize : ℤ} {staged : List StagedChange}

/-- The pieces of staged changes read what the changes would. -/
theorem packed_sourced (hmax : 0 < maxSize) (hstaged : ∀ s ∈ staged, s.Sourced data disk)
    (hcreates : ∀ s ∈ stagedCreates staged, s.startOffset = 0) :
    (∀ s ∈ packedCreates maxSize staged, s.Sourced data disk) ∧
      ∀ s ∈ packedAppends maxSize staged, s.Sourced data disk := by
  constructor
  · intro s hs
    obtain ⟨t, ht, rfl⟩ := List.mem_map.mp hs
    exact (hstaged t (mem_stagedCreates.mp ht).1).cut hmax
  · apply packedAppends_forall
    · intro s hs
      exact hstaged s (mem_stagedAppends.mp hs).1
    · intro s hs hlarge
      apply (hstaged s (mem_stagedCreates.mp hs).1).remainder hmax hlarge
      rw [hcreates s hs, zero_add]
    · intro s hs _
      exact hs.cut hmax
    · intro s hs hlarge
      exact hs.remainder hmax hlarge rfl

end Pieces

/-! ## Filling blobs -/

/-- The slice of its file that a change is about. -/
def CommitChange.source (data : Path) (c : CommitChange) : ReadSource :=
  ⟨(data.join c.path).normpath, c.startOffset, c.numBytes⟩

/-- A blob with these sources has the bytes of a change at its offset. -/
def CommitChange.ReadsFrom (data : Path) (c : CommitChange) (sources : List ReadSource) : Prop :=
  ∃ before after, sources = before ++ c.source data :: after ∧
    c.blobOffset = (before.map ReadSource.numBytes).sum ∧
    (c.type = .create → before = [] ∧ after = [] ∧ c.startOffset = 0)

/-- The sources of a blob, be it full or the current one. -/
def Packing.Fills (p : Packing) (name : BlobName) (sources : List ReadSource) : Prop :=
  .concatenating (.blob name) sources ∈ p.requiredGitOperations ∨
    p.currentBlobName = some name ∧ sources = p.currentBlobReadSources

/-- What the loops of steps 3d and 3e keep of the blobs. -/
structure Filling (data : Path) (disk : Disk) (commitId : CommitId) (p : Packing) : Prop where
  rows : ∀ c ∈ p.allCommitChanges, c.blobName.commitId = commitId ∧ c.blobName.blobId < p.blobId ∧
    ∃ sources, p.Fills c.blobName sources ∧ c.ReadsFrom data sources
  owned : p.allCommitChanges.Pairwise fun c d => c.type = .create ∨ d.type = .create →
    c.blobName ≠ d.blobName
  current : ∀ c ∈ p.allCommitChanges, c.type = .create → p.currentBlobName ≠ some c.blobName
  currentId : ∀ name, p.currentBlobName = some name →
    name.commitId = commitId ∧ name.blobId < p.blobId
  size : p.currentBlobSize = (p.currentBlobReadSources.map ReadSource.numBytes).sum
  used : ∀ name sources, p.Fills name sources → sources ≠ [] →
    ∃ c ∈ p.allCommitChanges, c.blobName = name
  nonempty : ∀ name sources, .concatenating (.blob name) sources ∈ p.requiredGitOperations →
    sources ≠ []
  readable : ∀ name sources, p.Fills name sources → ∀ s ∈ sources, s.Readable disk

theorem CommitChange.ReadsFrom.ne_nil {data : Path} {c : CommitChange} {sources : List ReadSource}
    (h : c.ReadsFrom data sources) : sources ≠ [] := by
  obtain ⟨before, after, rfl, -⟩ := h
  simp

/-- An append's bytes stay where they are when the blob goes on. -/
theorem CommitChange.ReadsFrom.snoc {data : Path} {c : CommitChange} {sources : List ReadSource}
    (h : c.ReadsFrom data sources) (htype : c.type ≠ .create) (s : ReadSource) :
    c.ReadsFrom data (sources ++ [s]) := by
  obtain ⟨before, after, rfl, hoffset, -⟩ := h
  exact ⟨before, after ++ [s], by simp, hoffset, fun hcreate => absurd hcreate htype⟩

theorem StagedChange.Sourced.source_eq {data : Path} {disk : Disk} {s : StagedChange}
    (h : s.Sourced data disk) {commitId : CommitId} {batchId : ℕ} {type : ChangeType}
    {blobName : BlobName} {blobOffset : ℤ} :
    (s.commitChange commitId batchId type blobName blobOffset).source data = s.readSource := by
  rw [CommitChange.source, readSource, h.backingPath, h.backingOffset]
  rfl

section Filling

variable {data : Path} {disk : Disk} {maxSize : ℤ} {commitId : CommitId} {p p' : Packing}
  {s : StagedChange}

theorem filling_empty : Filling data disk commitId Packing.empty where
  rows c hc := absurd hc List.not_mem_nil
  owned := .nil
  current c hc := absurd hc List.not_mem_nil
  currentId name hname := by cases hname
  size := rfl
  used name sources hfills := by
    rcases hfills with hop | ⟨hnone, -⟩
    · exact absurd hop List.not_mem_nil
    · cases hnone
  nonempty name sources hop := absurd hop List.not_mem_nil
  readable name sources hfills := by
    rcases hfills with hop | ⟨hnone, -⟩
    · exact absurd hop List.not_mem_nil
    · cases hnone

/-- A row whose bytes are where the blob of its name says, added to the others. -/
theorem Filling.addRow (h : Filling data disk commitId p) {row : CommitChange}
    (hrows : p'.allCommitChanges = p.allCommitChanges ++ [row])
    (hkept : ∀ c ∈ p.allCommitChanges, ∀ sources, p.Fills c.blobName sources →
      c.ReadsFrom data sources → ∃ sources', p'.Fills c.blobName sources' ∧
        c.ReadsFrom data sources')
    (hid : p.blobId ≤ p'.blobId)
    (hrow : row.blobName.commitId = commitId ∧ row.blobName.blobId < p'.blobId ∧
      ∃ sources, p'.Fills row.blobName sources ∧ row.ReadsFrom data sources)
    (howned : ∀ c ∈ p.allCommitChanges, c.type = .create ∨ row.type = .create →
      c.blobName ≠ row.blobName)
    (hcurrent : ∀ c ∈ p'.allCommitChanges, c.type = .create →
      p'.currentBlobName ≠ some c.blobName)
    (hcurrentId : ∀ name, p'.currentBlobName = some name →
      name.commitId = commitId ∧ name.blobId < p'.blobId)
    (hsize : p'.currentBlobSize = (p'.currentBlobReadSources.map ReadSource.numBytes).sum)
    (hfills : ∀ name sources, p'.Fills name sources →
      p.Fills name sources ∨ name = row.blobName ∧ ∀ s ∈ sources, s.Readable disk)
    (hnonempty : ∀ name sources,
      .concatenating (.blob name) sources ∈ p'.requiredGitOperations → sources ≠ []) :
    Filling data disk commitId p' where
  rows := by
    rw [hrows, List.forall_mem_append]
    constructor
    · intro c hc
      obtain ⟨hcommit, hlt, sources, hsources, hreads⟩ := h.rows c hc
      exact ⟨hcommit, lt_of_lt_of_le hlt hid, hkept c hc sources hsources hreads⟩
    · simpa using hrow
  owned := by
    rw [hrows, List.pairwise_append]
    refine ⟨h.owned, List.pairwise_singleton _ _, ?_⟩
    intro c hc d hd
    rw [List.mem_singleton.mp hd]
    exact howned c hc
  current := hcurrent
  currentId := hcurrentId
  size := hsize
  used name sources hname hne := by
    rw [hrows]
    rcases hfills name sources hname with hold | ⟨rfl, -⟩
    · obtain ⟨c, hc, heq⟩ := h.used name sources hold hne
      exact ⟨c, List.mem_append_left _ hc, heq⟩
    · exact ⟨row, by simp, rfl⟩
  nonempty := hnonempty
  readable name sources hname := by
    rcases hfills name sources hname with hold | ⟨-, hreadable⟩
    · exact h.readable name sources hold
    · exact hreadable

theorem Filling.packCreate (h : Filling data disk commitId p) (hs : s.Sourced data disk)
    (hnone : p.currentBlobName = none) (hpack : packCreate maxSize commitId p s = .ok p') :
    Filling data disk commitId p' ∧ p'.currentBlobName = none := by
  unfold DatabaseExporting.packCreate at hpack
  split_ifs at hpack with hassert
  push Not at hassert
  obtain ⟨hid, hname, hcurrentSize, hcurrentSources, hops, hrows⟩ :
      p'.blobId = p.blobId + 1 ∧ p'.currentBlobName = none ∧
      p'.currentBlobSize = p.currentBlobSize ∧
      p'.currentBlobReadSources = p.currentBlobReadSources ∧
      p'.requiredGitOperations = p.requiredGitOperations ++
        [.concatenating (.blob ⟨commitId, p.blobId⟩) [s.readSource]] ∧
      p'.allCommitChanges = p.allCommitChanges ++
        [s.commitChange commitId p.currentBatchId .create ⟨commitId, p.blobId⟩ 0] := by
    cases hpack
    exact ⟨rfl, hnone, rfl, rfl, rfl, rfl⟩
  have hfills : ∀ name sources, p'.Fills name sources ↔
      p.Fills name sources ∨ name = ⟨commitId, p.blobId⟩ ∧ sources = [s.readSource] := by
    intro name sources
    simp [Packing.Fills, hops, hname, hnone]
  have hnew : ∀ c ∈ p.allCommitChanges, c.blobName ≠ ⟨commitId, p.blobId⟩ := by
    intro c hc heq
    have hlt := (h.rows c hc).2.1
    rw [heq] at hlt
    exact lt_irrefl _ hlt
  refine ⟨h.addRow hrows ?_ (by omega) ⟨rfl, ?_, [s.readSource], ?_, [], [], ?_, rfl, ?_⟩ ?_ ?_ ?_ ?_
    ?_ ?_, hname⟩
  · intro c hc sources hsources hreads
    exact ⟨sources, (hfills _ _).mpr (Or.inl hsources), hreads⟩
  · change p.blobId < p'.blobId
    omega
  · exact (hfills _ _).mpr (Or.inr ⟨rfl, rfl⟩)
  · rw [hs.source_eq]
    rfl
  · exact fun _ => ⟨rfl, rfl, hassert.1⟩
  · exact fun c hc _ => hnew c hc
  · intro c _ _
    rw [hname]
    simp
  · intro name hsome
    rw [hname] at hsome
    cases hsome
  · rw [hcurrentSize, hcurrentSources, h.size]
  · intro name sources hname'
    refine ((hfills name sources).mp hname').imp_right fun hnow => ⟨hnow.1, ?_⟩
    rw [hnow.2]
    simpa using hs.readable
  · intro name sources hop
    rw [hops, List.mem_append, List.mem_singleton] at hop
    rcases hop with hold | heq
    · exact h.nonempty name sources hold
    · cases heq
      simp

theorem Filling.openBlob (h : Filling data disk commitId p)
    (hclosed : ∀ sources, ∀ name, p.Fills name sources → sources ≠ [] →
      .concatenating (.blob name) sources ∈ p.requiredGitOperations) :
    Filling data disk commitId (p.openBlob commitId) where
  rows c hc := by
    obtain ⟨hcommit, hlt, sources, hsources, hreads⟩ := h.rows c hc
    exact ⟨hcommit, Nat.lt_succ_of_lt hlt, sources,
      Or.inl (hclosed sources _ hsources hreads.ne_nil), hreads⟩
  owned := h.owned
  current c hc _ heq := by
    have hlt := (h.rows c hc).2.1
    rw [← Option.some.inj heq] at hlt
    exact lt_irrefl _ hlt
  currentId name hname := by
    cases hname
    exact ⟨rfl, Nat.lt_succ_self _⟩
  size := rfl
  used name sources hname hne := by
    rcases hname with hop | ⟨-, hnil⟩
    · exact h.used name sources (Or.inl hop) hne
    · exact absurd hnil hne
  nonempty := h.nonempty
  readable name sources hname := by
    rcases hname with hop | ⟨-, hnil⟩
    · exact h.readable name sources (Or.inl hop)
    · rw [hnil]
      exact fun s hs => absurd hs List.not_mem_nil

theorem Filling.closeBlob (h : Filling data disk commitId p) {blobName : BlobName}
    (hname : p.currentBlobName = some blobName) (hne : p.currentBlobReadSources ≠ []) :
    Filling data disk commitId (p.closeBlob blobName) ∧ ∀ sources, ∀ name,
      (p.closeBlob blobName).Fills name sources →
      .concatenating (.blob name) sources ∈ (p.closeBlob blobName).requiredGitOperations := by
  have hfills : ∀ name sources, (p.closeBlob blobName).Fills name sources ↔ p.Fills name sources := by
    intro name sources
    simp only [Packing.Fills, Packing.closeBlob, List.mem_append, List.mem_singleton]
    constructor
    · rintro ((hop | heq) | hcurrent)
      · exact Or.inl hop
      · cases heq
        exact Or.inr ⟨hname, rfl⟩
      · exact Or.inr hcurrent
    · rintro (hop | hcurrent)
      · exact Or.inl (Or.inl hop)
      · exact Or.inr hcurrent
  constructor
  · exact {
      rows := fun c hc => by
        obtain ⟨hcommit, hlt, sources, hsources, hreads⟩ := h.rows c hc
        exact ⟨hcommit, hlt, sources, (hfills _ _).mpr hsources, hreads⟩
      owned := h.owned
      current := h.current
      currentId := h.currentId
      size := h.size
      used := fun name sources hsources => h.used name sources ((hfills _ _).mp hsources)
      nonempty := by
        intro name sources hop
        rcases List.mem_append.mp hop with hold | hnew
        · exact h.nonempty name sources hold
        · cases List.mem_singleton.mp hnew
          exact hne
      readable := fun name sources hsources => h.readable name sources ((hfills _ _).mp hsources) }
  · intro sources name hsources
    rcases (hfills name sources).mp hsources with hop | ⟨hcurrent, rfl⟩
    · exact List.mem_append_left _ hop
    · rw [hname] at hcurrent
      cases hcurrent
      exact List.mem_append_right _ (List.mem_singleton_self _)

theorem Filling.makeRoom (h : Filling data disk commitId p)
    (hroom : p.makeRoom maxSize commitId s = .ok p') : Filling data disk commitId p' := by
  unfold Packing.makeRoom at hroom
  split at hroom
  · next hnone =>
    cases hroom
    apply h.openBlob
    rintro sources name (hop | ⟨hsome, -⟩) -
    · exact hop
    · rw [hnone] at hsome
      cases hsome
  · next blobName hsome =>
    split_ifs at hroom with hfull hassert
    · cases hroom
      push Not at hassert
      obtain ⟨hclosed, hops⟩ := h.closeBlob hsome hassert.2
      exact hclosed.openBlob fun sources name hsources _ => hops sources name hsources
    · cases hroom
      exact h

theorem Filling.write (h : Filling data disk commitId p) (hs : s.Sourced data disk)
    {blobName : BlobName} (hname : p.currentBlobName = some blobName) :
    Filling data disk commitId (p.write commitId blobName s) := by
  have hfills : ∀ name sources, (p.write commitId blobName s).Fills name sources ↔
      .concatenating (.blob name) sources ∈ p.requiredGitOperations ∨
        name = blobName ∧ sources = p.currentBlobReadSources ++ [s.readSource] := by
    intro name sources
    simp only [Packing.Fills, Packing.write, hname, Option.some.injEq]
    rw [eq_comm (a := blobName)]
  refine h.addRow rfl ?_ (Nat.le_refl _) ⟨?_, ?_, _, ?_, p.currentBlobReadSources, [], rfl, ?_, ?_⟩ ?_ ?_
    h.currentId ?_ ?_ h.nonempty
  · rintro c hc sources (hop | ⟨hsome, rfl⟩) hreads
    · exact ⟨sources, (hfills _ _).mpr (Or.inl hop), hreads⟩
    · rw [hname] at hsome
      cases hsome
      refine ⟨_, (hfills _ _).mpr (Or.inr ⟨rfl, rfl⟩), hreads.snoc ?_ _⟩
      exact fun hcreate => h.current c hc hcreate hname
  · exact (h.currentId _ hname).1
  · exact (h.currentId _ hname).2
  · rw [hs.source_eq]
    exact (hfills _ _).mpr (Or.inr ⟨rfl, rfl⟩)
  · exact h.size
  · intro hcreate
    cases hcreate
  · rintro c hc (hcreate | hcreate) heq
    · apply h.current c hc hcreate
      rw [hname, heq]
      rfl
    · cases hcreate
  · intro c hc hcreate
    rcases List.mem_append.mp hc with hc | hc
    · exact h.current c hc hcreate
    · rw [List.mem_singleton.mp hc] at hcreate
      cases hcreate
  · simp [Packing.write, h.size, StagedChange.readSource]
  · intro name sources hsources
    rcases (hfills name sources).mp hsources with hop | ⟨rfl, rfl⟩
    · exact Or.inl (Or.inl hop)
    · refine Or.inr ⟨rfl, ?_⟩
      rw [List.forall_mem_append]
      exact ⟨h.readable _ _ (Or.inr ⟨hname, rfl⟩), by simpa using hs.readable⟩

theorem Filling.packAppend (h : Filling data disk commitId p) (hs : s.Sourced data disk)
    (hpack : packAppend maxSize commitId p s = .ok p') : Filling data disk commitId p' := by
  unfold DatabaseExporting.packAppend at hpack
  cases hroom : p.makeRoom maxSize commitId s with
  | error e => simp [hroom] at hpack
  | ok q =>
    rw [hroom] at hpack
    dsimp only at hpack
    split at hpack
    · cases hpack
    · next blobName hname =>
      cases hpack
      exact (h.makeRoom hroom).write hs hname

/-- In the end every blob with sources has its operation. -/
theorem Filling.finish (h : Filling data disk commitId p) :
    Filling data disk commitId p.finish ∧ ∀ sources, ∀ name, p.finish.Fills name sources →
      sources ≠ [] → .concatenating (.blob name) sources ∈ p.finish.requiredGitOperations := by
  unfold Packing.finish
  split
  · next hnone =>
    refine ⟨h, ?_⟩
    rintro sources name (hop | ⟨hsome, -⟩) -
    · exact hop
    · rw [hnone] at hsome
      cases hsome
  · next blobName hsome =>
    split_ifs with hnil
    · refine ⟨h, ?_⟩
      rintro sources name (hop | ⟨-, rfl⟩) hne
      · exact hop
      · exact absurd hnil hne
    · obtain ⟨hclosed, hops⟩ := h.closeBlob hsome hnil
      exact ⟨hclosed, fun sources name hsources _ => hops sources name hsources⟩

theorem Filling.endCreates (h : Filling data disk commitId p) (creates : List StagedChange) :
    Filling data disk commitId (p.endCreates creates) := by
  unfold Packing.endCreates
  split_ifs
  · exact h
  · exact ⟨h.rows, h.owned, h.current, h.currentId, h.size, h.used, h.nonempty, h.readable⟩

theorem buildChanges_filling {staged : List StagedChange} (hmax : 0 < maxSize)
    (hstaged : ∀ s ∈ staged, s.Sourced data disk)
    (h : buildChanges maxSize commitId staged = .ok p) :
    Filling data disk commitId p ∧ ∀ sources, ∀ name, p.Fills name sources → sources ≠ [] →
      .concatenating (.blob name) sources ∈ p.requiredGitOperations := by
  obtain ⟨hstart, p₁, p₂, hcreates, happends, rfl⟩ := buildChanges_ok h
  obtain ⟨hsourcedCreates, hsourcedAppends⟩ := packed_sourced hmax hstaged hstart
  have h₁ : Filling data disk commitId p₁ ∧ p₁.currentBlobName = none := by
    refine Folds.foldlM_ok (I := fun _ p => Filling data disk commitId p ∧
      p.currentBlobName = none) hcreates ⟨filling_empty, rfl⟩ ?_
    rintro done s rest q q' hl ⟨hq, hnone⟩ hpack
    exact hq.packCreate (hsourcedCreates s (by simp [hl])) hnone hpack
  have h₂ : Filling data disk commitId p₂ := by
    refine Folds.foldlM_ok (I := fun _ p => Filling data disk commitId p) happends
      (h₁.1.endCreates _) ?_
    intro done s rest q q' hl hq hpack
    exact hq.packAppend (hsourcedAppends s (by simp [hl])) hpack
  exact h₂.finish

end Filling

/-! ## Uploads -/

/-- A blob file and its content. -/
structure Upload where
  name : BlobName
  content : Bytes
  deriving DecidableEq, Repr

/-- The blob files that the operations say how to fill. -/
def uploadsOf (disk : Disk) (ops : List VirtualAddOperation) : List Upload :=
  ops.filterMap fun
    | .concatenating (.blob name) sources => some ⟨name, concatenation disk sources⟩
    | _ => none

/-- What the source has at a path of the archive. -/
def sourceOf (data : Path) (disk : Disk) (path : Path) : Bytes :=
  match disk (data.join path).normpath with
  | .regular content => content
  | _ => []

/-- What some changes need is uploaded, and nothing else is. -/
structure Uploaded (source : Path → Bytes) (rows : List CommitChange) (uploads : List Upload) :
    Prop where
  commit : ∀ c ∈ rows, c.blobName.commitId = c.commitId
  backed : ∀ c ∈ rows, ∃ content, ⟨c.blobName, content⟩ ∈ uploads ∧
    c.Backed (source c.path) content
  owned : rows.Pairwise fun c d => c.type = .create ∨ d.type = .create → c.blobName ≠ d.blobName
  used : ∀ u ∈ uploads, ∃ c ∈ rows, c.blobName = u.name
  nodup : (uploads.map Upload.name).Nodup

section Uploads

variable {data : Path} {disk : Disk} {maxSize : ℤ} {commitId : CommitId} {p : Packing}
  {c : CommitChange} {sources : List ReadSource} {source source' : Path → Bytes}
  {rows rows' : List CommitChange} {uploads uploads' : List Upload}

theorem mem_uploadsOf {ops : List VirtualAddOperation} {u : Upload} :
    u ∈ uploadsOf disk ops ↔ ∃ sources, .concatenating (.blob u.name) sources ∈ ops ∧
      u.content = concatenation disk sources := by
  rw [uploadsOf, List.mem_filterMap]
  constructor
  · rintro ⟨op, hop, hu⟩
    split at hu
    · next name sources =>
      cases hu
      exact ⟨sources, hop, rfl⟩
    · cases hu
  · rintro ⟨sources, hop, hcontent⟩
    refine ⟨_, hop, ?_⟩
    dsimp only
    rw [← hcontent]

/-- The uploads of a commit are numbered. -/
theorem names_uploadsOf (blobs : List (List ReadSource)) :
    (uploadsOf disk (blobs.mapIdx (blobOperation commitId))).map Upload.name =
      (List.range blobs.length).map (BlobName.mk commitId) := by
  induction blobs using List.reverseRecOn with
  | nil => rfl
  | append_singleton blobs sources ih =>
    rw [List.mapIdx_concat, uploadsOf, List.filterMap_append, List.map_append, List.length_append,
      List.length_singleton, List.range_succ, List.map_append, ← ih]
    rfl

theorem CommitChange.ReadsFrom.backed (h : c.ReadsFrom data sources)
    (hreadable : ∀ s ∈ sources, s.Readable disk) :
    c.Backed (sourceOf data disk c.path) (concatenation disk sources) := by
  obtain ⟨before, after, rfl, hoffset, hcreate⟩ := h
  have hsource : (c.source data).Readable disk := hreadable _ (by simp)
  have hbefore : ∀ s ∈ before, s.Readable disk := fun s hs => hreadable s (by simp [hs])
  have hlength : ((concatenation disk before).length : ℤ) = c.blobOffset := by
    rw [length_concatenation hbefore, totalLength_eq, hoffset, lengths]
  have hslice := length_slice hsource
  obtain ⟨content, hfile, hlen⟩ := hsource.file
  have hcontent : sourceOf data disk c.path = content := by
    simp only [CommitChange.source] at hfile
    rw [sourceOf, hfile]
  have hconcat : concatenation disk (before ++ c.source data :: after) =
      concatenation disk before ++ ((c.source data).slice disk ++ concatenation disk after) := by
    simp [concatenation]
  constructor
  · omega
  · exact hsource.offset_nonneg
  · exact hsource.numBytes_nonneg
  · rw [hcontent]
    exact hlen
  · have htake : c.numBytes.toNat = ((c.source data).slice disk).length := by
      simp only [CommitChange.source] at hslice ⊢
      omega
    rw [hconcat, ← hlength, Int.toNat_natCast, List.drop_left, htake, List.take_left, ← htake,
      hcontent, ReadSource.slice, hfile]
    rfl
  · intro htype
    obtain ⟨rfl, rfl, hstart⟩ := hcreate htype
    refine ⟨by simpa using hoffset, hstart, ?_⟩
    change _ = (c.source data).numBytes
    simpa [concatenation] using hslice

/-- What a build records is what is uploaded for it. -/
theorem buildChanges_uploaded {staged : List StagedChange} (hmax : 0 < maxSize)
    (hnodup : (staged.map StagedChange.path).Nodup)
    (hstaged : ∀ s ∈ staged, s.Sourced data disk)
    (h : buildChanges maxSize commitId staged = .ok p) :
    Uploaded (sourceOf data disk) p.allCommitChanges (uploadsOf disk p.requiredGitOperations) := by
  obtain ⟨hfilling, hops⟩ := buildChanges_filling hmax hstaged h
  have hrecords := buildChanges_records hnodup h
  constructor
  · intro c hc
    rw [(hfilling.rows c hc).1, hrecords.commit c hc]
  · intro c hc
    obtain ⟨-, -, sources, hsources, hreads⟩ := hfilling.rows c hc
    exact ⟨_, mem_uploadsOf.mpr ⟨sources, hops sources _ hsources hreads.ne_nil, rfl⟩,
      hreads.backed (hfilling.readable _ _ hsources)⟩
  · exact hfilling.owned
  · intro u hu
    obtain ⟨sources, hop, -⟩ := mem_uploadsOf.mp hu
    exact hfilling.used u.name sources (Or.inl hop) (hfilling.nonempty _ _ hop)
  · obtain ⟨blobs, hblobs⟩ := buildChanges_operations h
    rw [hblobs, names_uploadsOf]
    exact List.nodup_range.map fun i j hij => congrArg BlobName.blobId hij

theorem CommitChange.Backed.mono {content old new : Bytes} (h : c.Backed old content)
    (hpre : old <+: new) : c.Backed new content := by
  obtain ⟨more, rfl⟩ := hpre
  have hwithin := h.within
  have hstart := h.startOffset_nonneg
  have hbytes := h.numBytes_nonneg
  refine ⟨h.blobOffset_nonneg, hstart, hbytes, ?_, ?_, h.whole⟩
  · rw [List.length_append]
    omega
  · rw [h.slice, List.drop_append_of_le_length (by omega), List.take_append_of_le_length]
    rw [List.length_drop]
    omega

theorem Uploaded.mono (h : Uploaded source rows uploads)
    (hgrows : ∀ path, source path <+: source' path) : Uploaded source' rows uploads where
  commit := h.commit
  backed c hc := by
    obtain ⟨content, hmem, hbacked⟩ := h.backed c hc
    exact ⟨content, hmem, hbacked.mono (hgrows c.path)⟩
  owned := h.owned
  used := h.used
  nodup := h.nodup

/-- The blobs of other commits have other names. -/
theorem Uploaded.append (h : Uploaded source rows uploads) (h' : Uploaded source rows' uploads')
    (hother : ∀ c ∈ rows, ∀ d ∈ rows', c.commitId ≠ d.commitId) :
    Uploaded source (rows ++ rows') (uploads ++ uploads') := by
  have hnames : ∀ c ∈ rows, ∀ d ∈ rows', c.blobName ≠ d.blobName := by
    intro c hc d hd heq
    apply hother c hc d hd
    rw [← h.commit c hc, ← h'.commit d hd, heq]
  constructor
  · rw [List.forall_mem_append]
    exact ⟨h.commit, h'.commit⟩
  · rw [List.forall_mem_append]
    constructor
    · intro c hc
      obtain ⟨content, hmem, hbacked⟩ := h.backed c hc
      exact ⟨content, List.mem_append_left _ hmem, hbacked⟩
    · intro c hc
      obtain ⟨content, hmem, hbacked⟩ := h'.backed c hc
      exact ⟨content, List.mem_append_right _ hmem, hbacked⟩
  · rw [List.pairwise_append]
    exact ⟨h.owned, h'.owned, fun c hc d hd _ => hnames c hc d hd⟩
  · rw [List.forall_mem_append]
    constructor
    · intro u hu
      obtain ⟨c, hc, heq⟩ := h.used u hu
      exact ⟨c, List.mem_append_left _ hc, heq⟩
    · intro u hu
      obtain ⟨c, hc, heq⟩ := h'.used u hu
      exact ⟨c, List.mem_append_right _ hc, heq⟩
  · rw [List.map_append, List.nodup_append]
    refine ⟨h.nodup, h'.nodup, ?_⟩
    intro m hm n hn
    obtain ⟨u, hu, rfl⟩ := List.mem_map.mp hm
    obtain ⟨v, hv, rfl⟩ := List.mem_map.mp hn
    obtain ⟨c, hc, hcu⟩ := h.used u hu
    obtain ⟨d, hd, hdv⟩ := h'.used v hv
    rw [← hcu, ← hdv]
    exact hnames c hc d hd

end Uploads

/-! ## Staged changes and their files -/

section Source

variable {data : Path} {disk : Disk} {path backingPath : Path} {requested : ℤ}
  {committed : Option ℤ} {rows rows' : List StagedChange}

theorem requestedBytes_ok {avc : Avc} {numBytes : Option ℤ}
    (h : avc.requestedBytes disk path numBytes = .ok requested) : ∃ content,
    disk (avc.dataToplevel.join path).normpath = .regular content ∧ requested ≤ content.length := by
  unfold Avc.requestedBytes at h
  split_ifs at h
  split at h
  · cases h
  · cases h
  · next content hcontent =>
    refine ⟨content, hcontent, ?_⟩
    split at h
    · cases h
      exact le_rfl
    · split_ifs at h with hlarge
      cases h
      omega

/-- A file that grows keeps what it had. -/
theorem sourceOf_append (p : Path) (more : Bytes) (path : Path) :
    sourceOf data disk path <+: sourceOf data (disk.append p more) path := by
  unfold sourceOf
  cases hstat : disk (data.join path).normpath with
  | missing => exact List.nil_prefix
  | other => exact List.nil_prefix
  | regular content =>
    obtain ⟨rest, hrest⟩ := Disk.append_regular p more hstat
    rw [hrest]
    exact List.prefix_append _ _

theorem StagedChange.Sourced.append {s : StagedChange} (h : s.Sourced data disk) (p : Path)
    (more : Bytes) : s.Sourced data (disk.append p more) :=
  ⟨h.backingPath, h.backingOffset, h.readable.append.1⟩

/-- A row that is staged or extended reads the file that was asked for, no further than it goes. -/
theorem stage_sourced (h : stage path backingPath requested committed rows = .ok rows')
    (hrows : ∀ s ∈ rows, s.Sourced data disk)
    (hcontinues : ∀ s ∈ rows, s.path = path → s.Continues committed) {content : Bytes}
    (hbacking : backingPath = (data.join path).normpath) (hfile : disk backingPath = .regular content)
    (hrequested : requested ≤ content.length) (hnew : committed.getD 0 ≤ requested)
    (hcommitted : 0 ≤ committed.getD 0) : ∀ s ∈ rows', s.Sourced data disk := by
  have hset : ∀ r ∈ rows, r.path = path → ∀ s ∈ setNumBytes path
      (max r.numBytes (requested - committed.getD 0)) rows, s.Sourced data disk := by
    intro r hr hrpath s hs
    rcases mem_setNumBytes hs with ⟨t, ht, htpath, rfl⟩ | ⟨-, hmem⟩
    · have hsourced := hrows t ht
      have hstart : ∀ q ∈ rows, q.path = path → q.startOffset = committed.getD 0 := by
        intro q hq hqpath
        have hq' := hcontinues q hq hqpath
        cases committed with
        | none => exact hq'.2
        | some size => exact hq'.2.1
      have hbacked := hrows r hr
      obtain ⟨content', hfile', hle⟩ := hbacked.readable.file
      have hoffset := hbacked.backingOffset
      have hbytes := hbacked.readable.numBytes_nonneg
      have hr' := hstart r hr hrpath
      have ht' := hstart t ht htpath
      have hoffset' := hsourced.backingOffset
      simp only [StagedChange.readSource] at hfile' hle hbytes
      rw [hbacked.backingPath, hrpath, ← hbacking, hfile] at hfile'
      cases hfile'
      have htfile : disk t.backingPath = .regular content := by
        rw [hsourced.backingPath, htpath, ← hbacking, hfile]
      refine ⟨hsourced.backingPath, hoffset', hsourced.readable.offset_nonneg, ?_, content, htfile, ?_⟩
      · simp only [StagedChange.readSource]
        omega
      · simp only [StagedChange.readSource]
        omega
    · exact hrows s hmem
  have hadd : ∀ type, (⟨path, type, committed.getD 0, requested - committed.getD 0, backingPath,
      committed.getD 0⟩ : StagedChange).Sourced data disk := by
    intro type
    refine ⟨hbacking, rfl, hcommitted, ?_, content, hfile, ?_⟩
    · simp only [StagedChange.readSource]
      omega
    · simp only [StagedChange.readSource]
      omega
  unfold stage at h
  split at h
  · next row hfind =>
    split_ifs at h
    cases h
    obtain ⟨hmem, hpath⟩ := find_path_some hfind
    have hall := hset row hmem hpath
    simp only [Option.getD_none, sub_zero] at hall
    exact hall
  · cases h
    rw [List.forall_mem_append]
    refine ⟨hrows, ?_⟩
    have hone := hadd .create
    simp only [Option.getD_none, sub_zero] at hone
    simpa using hone
  · next row hfind =>
    split_ifs at h
    cases h
    obtain ⟨hmem, hpath⟩ := find_path_some hfind
    exact hset row hmem hpath
  · cases h
    rw [List.forall_mem_append]
    refine ⟨hrows, ?_⟩
    simpa using hadd .append

end Source

end NpmFollower.DatabaseExporting
