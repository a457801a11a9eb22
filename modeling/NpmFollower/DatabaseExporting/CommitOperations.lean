import NpmFollower.DatabaseExporting.Staging

/-! # The operations of a commit

The blobs of a commit are numbered in the order of their operations, so no two
operations have one path in the repository.
-/

namespace NpmFollower.DatabaseExporting

def VirtualAddOperation.repoPath : VirtualAddOperation → RepoPath
  | .concatenating repoPath _ => repoPath
  | .direct repoPath _ => repoPath

def blobOperation (commitId : CommitId) (i : ℕ) (sources : List ReadSource) : VirtualAddOperation :=
  .concatenating (.blob ⟨commitId, i⟩) sources

section Numbering

variable {maxSize : ℤ} {commitId : CommitId} {p p' : Packing} {blobs : List (List ReadSource)}

/-- The blobs that are full are numbered from 0, and the current one comes next. -/
structure Numbered (commitId : CommitId) (p : Packing) (blobs : List (List ReadSource)) : Prop where
  operations : p.requiredGitOperations = blobs.mapIdx (blobOperation commitId)
  current : p.currentBlobName = none ∧ p.blobId = blobs.length ∨
    p.currentBlobName = some ⟨commitId, blobs.length⟩ ∧ p.blobId = blobs.length + 1

theorem numbered_empty : Numbered commitId Packing.empty [] := ⟨rfl, Or.inl ⟨rfl, rfl⟩⟩

theorem Numbered.packCreate {s : StagedChange} (h : Numbered commitId p blobs)
    (hnone : p.currentBlobName = none) (hpack : packCreate maxSize commitId p s = .ok p') :
    Numbered commitId p' (blobs ++ [[s.readSource]]) ∧ p'.currentBlobName = none := by
  rcases h.current with ⟨-, hid⟩ | ⟨hsome, -⟩
  · unfold DatabaseExporting.packCreate at hpack
    split_ifs at hpack
    cases hpack
    refine ⟨⟨?_, Or.inl ⟨hnone, ?_⟩⟩, hnone⟩
    · simp [h.operations, hid, blobOperation]
    · simp [hid]
  · rw [hnone] at hsome
    cases hsome

theorem Numbered.openBlob (h : Numbered commitId p blobs) (hnone : p.currentBlobName = none) :
    Numbered commitId (p.openBlob commitId) blobs := by
  rcases h.current with ⟨-, hid⟩ | ⟨hsome, -⟩
  · refine ⟨h.operations, Or.inr ⟨?_, ?_⟩⟩
    · simp [Packing.openBlob, hid]
    · simp [Packing.openBlob, hid]
  · rw [hnone] at hsome
    cases hsome

/-- The current blob gets the number after the full ones. -/
theorem Numbered.closeBlob {blobName : BlobName} (h : Numbered commitId p blobs)
    (hsome : p.currentBlobName = some blobName) :
    (p.closeBlob blobName).requiredGitOperations =
      (blobs ++ [p.currentBlobReadSources]).mapIdx (blobOperation commitId) ∧
    p.blobId = blobs.length + 1 := by
  rcases h.current with ⟨hnone, -⟩ | ⟨hname, hid⟩
  · rw [hnone] at hsome
    cases hsome
  · rw [hsome] at hname
    cases hname
    simp [Packing.closeBlob, h.operations, hid, blobOperation]

theorem Numbered.packAppend {s : StagedChange} (h : Numbered commitId p blobs)
    (hpack : packAppend maxSize commitId p s = .ok p') : ∃ blobs', Numbered commitId p' blobs' := by
  unfold DatabaseExporting.packAppend at hpack
  cases hroom : p.makeRoom maxSize commitId s with
  | error e => simp [hroom] at hpack
  | ok q =>
    have hq : ∃ blobs', Numbered commitId q blobs' := by
      unfold Packing.makeRoom at hroom
      split at hroom
      · next hnone =>
        cases hroom
        exact ⟨blobs, h.openBlob hnone⟩
      · next blobName hsome =>
        split_ifs at hroom
        · cases hroom
          obtain ⟨hoperations, hid⟩ := h.closeBlob hsome
          refine ⟨blobs ++ [p.currentBlobReadSources], hoperations, Or.inr ⟨?_, ?_⟩⟩
          · simp [Packing.openBlob, Packing.closeBlob, hid]
          · simp [Packing.openBlob, Packing.closeBlob, hid]
        · cases hroom
          exact ⟨blobs, h⟩
    rw [hroom] at hpack
    dsimp only at hpack
    split at hpack
    · cases hpack
    · cases hpack
      obtain ⟨blobs', hnumbered⟩ := hq
      exact ⟨blobs', hnumbered.operations, hnumbered.current⟩

theorem Numbered.finish (h : Numbered commitId p blobs) :
    ∃ blobs' : List (List ReadSource),
      p.finish.requiredGitOperations = blobs'.mapIdx (blobOperation commitId) := by
  unfold Packing.finish
  split
  · exact ⟨blobs, h.operations⟩
  · next blobName hsome =>
    split_ifs
    · exact ⟨blobs, h.operations⟩
    · exact ⟨_, (h.closeBlob hsome).1⟩

theorem buildChanges_operations {staged : List StagedChange}
    (h : buildChanges maxSize commitId staged = .ok p) :
    ∃ blobs : List (List ReadSource), p.requiredGitOperations = blobs.mapIdx (blobOperation commitId) := by
  obtain ⟨-, p₁, p₂, hcreates, happends, rfl⟩ := buildChanges_ok h
  have h₁ : ∃ blobs, Numbered commitId p₁ blobs ∧ p₁.currentBlobName = none := by
    refine Folds.foldlM_ok (I := fun _ p => ∃ blobs, Numbered commitId p blobs ∧
      p.currentBlobName = none) hcreates ⟨[], numbered_empty, rfl⟩ ?_
    rintro done s rest q q' - ⟨blobs, hq, hnone⟩ hpack
    exact ⟨_, hq.packCreate hnone hpack⟩
  have h₂ : ∃ blobs, Numbered commitId p₂ blobs := by
    refine Folds.foldlM_ok (I := fun _ p => ∃ blobs, Numbered commitId p blobs) happends ?_ ?_
    · obtain ⟨blobs, hnumbered, -⟩ := h₁
      refine ⟨blobs, ?_, ?_⟩
      · rw [← hnumbered.operations, Packing.endCreates]
        split_ifs <;> rfl
      · have hcurrent := hnumbered.current
        rw [Packing.endCreates]
        split_ifs <;> exact hcurrent
    · rintro done s rest q q' - ⟨blobs, hq⟩ hpack
      exact hq.packAppend hpack
  obtain ⟨blobs, hnumbered⟩ := h₂
  exact hnumbered.finish

end Numbering

/-- The operations that a commit with this id can have. -/
def OperationsOf (commitId : CommitId) (ops : List VirtualAddOperation) : Prop :=
  ∃ blobs : List (List ReadSource),
    ops = blobs.mapIdx (blobOperation commitId) ++ [databaseOperation]

section Operations

variable {commitId : CommitId} {ops : List VirtualAddOperation} {op op' : VirtualAddOperation}

theorem OperationsOf.database (h : OperationsOf commitId ops) : databaseOperation ∈ ops := by
  obtain ⟨blobs, rfl⟩ := h
  simp

theorem OperationsOf.form (h : OperationsOf commitId ops) (hop : op ∈ ops) :
    op = databaseOperation ∨ ∃ i sources, op = blobOperation commitId i sources := by
  obtain ⟨blobs, rfl⟩ := h
  rcases List.mem_append.mp hop with hblob | hdatabase
  · obtain ⟨i, hi, rfl⟩ := List.mem_mapIdx.mp hblob
    exact Or.inr ⟨i, blobs[i], rfl⟩
  · exact Or.inl (List.mem_singleton.mp hdatabase)

/-- A path belongs to one operation of a commit. -/
theorem OperationsOf.distinct (h : OperationsOf commitId ops) (hop : op ∈ ops) (hop' : op' ∈ ops)
    (hpath : op.repoPath = op'.repoPath) : op = op' := by
  obtain ⟨blobs, rfl⟩ := h
  simp only [List.mem_append, List.mem_mapIdx, List.mem_singleton] at hop hop'
  rcases hop with ⟨i, hi, rfl⟩ | rfl <;> rcases hop' with ⟨j, hj, rfl⟩ | rfl
  · cases hpath
    rfl
  · cases hpath
  · cases hpath
  · rfl

/-- What a build leaves: nothing when nothing is staged, else the operations of its commit. -/
theorem buildGitCommit_operations {maxSize : ℤ} {avc avc' : Avc} {dryRun : Bool}
    (h : avc.buildGitCommit maxSize commitId dryRun = .ok (ops, avc')) :
    ops = [] ∧ avc' = avc ∨ OperationsOf commitId ops ∧
      (if dryRun then avc' = avc
        else avc'.globalDb.commits.length = avc.globalDb.commits.length + 1) := by
  rcases buildGitCommit_cases h with hnone | ⟨-, p, hp, rfl, hlast⟩
  · exact Or.inl hnone
  · obtain ⟨blobs, hblobs⟩ := buildChanges_operations hp
    refine Or.inr ⟨⟨blobs, by rw [hblobs]⟩, ?_⟩
    split_ifs at hlast ⊢
    · exact hlast
    · rw [(recordCommit_ok hlast).2]
      rfl

end Operations

end NpmFollower.DatabaseExporting
