import NpmFollower.DatabaseExporting.PulledBlobs

/-! # Round trips to a clone

Files that grow on the source are added and committed, and the blobs of every commit are
uploaded. A clone that fast-forwards has the committed part of every file and has used every
blob once, where the places of the committed files allow it: no directory is made for a
file in the clone, and no two paths are compared by their places.
-/

namespace NpmFollower.DatabaseExporting

open FileTree

/-- The source with its files, what was uploaded, and a clone. -/
structure History where
  source : Avc
  disk : Disk
  uploads : List Upload
  clone : Clone
  /-- The number of uploads that the clone has pulled. -/
  pulled : ℕ
  /-- What the last `fast_forward` has raised. -/
  raised : Option CloneError

inductive HistoryAction where
  /-- The files of the source only grow. -/
  | grow (path : Path) (bytes : Bytes)
  | add (path : Path) (numBytes : Option ℤ)
  | resetStaged
  | buildGitCommit (commitId : CommitId) (dryRun : Bool)
  | fastForward

/-- The files that belong to `avc` in a clone. -/
def Clone.ownFiles (clone : Clone) (names : List BlobName) : List Path :=
  [clone.avcDir.join ⟨false, ["global_state.db"]⟩, clone.avcDir.join ⟨false, ["local_state.db"]⟩,
    clone.avcDir.join ⟨false, ["config.json"]⟩] ++ names.map clone.blobPath

namespace History

/-- A fresh archive and a fresh clone of it. -/
def initial (sourceData cloneData : Path) (disk : Disk) (repoToplevel : Toplevel)
    (tree : FileTree) : History where
  source := .init sourceData
  disk := disk
  uploads := []
  clone := ⟨repoToplevel, .init cloneData, tree, []⟩
  pulled := 0
  raised := none

/-- The source's file at a path of the archive. -/
def bytes (s : History) : Path → Bytes := sourceOf s.source.dataToplevel s.disk

/-- An add is of more than the committed size. -/
def strictlyExtends (s : History) (path : Path) (numBytes : Option ℤ) : Bool :=
  match s.source.requestedBytes s.disk path numBytes, s.source.getCommittedFileSize path with
  | .ok requested, .ok (some size) => size < requested
  | .ok requested, .ok none => 0 ≤ requested
  | _, _ => false

/-- The clone with what has been uploaded. -/
def pulledClone (s : History) : Clone :=
  s.clone.pull s.source.globalDb (s.uploads.drop s.pulled)

section Step

variable (maxSize : ℤ) (batches : BatchOrder)

def step (s : History) : HistoryAction → Option History
  | .grow path bytes => some { s with disk := s.disk.append path bytes }
  | .add path numBytes =>
    if s.strictlyExtends path numBytes then
      (s.source.add s.disk path numBytes).toOption.map fun source => { s with source }
    else none
  | .resetStaged => some { s with source := s.source.resetStaged }
  | .buildGitCommit commitId dryRun =>
    if IsHexDigest commitId then
      (s.source.buildGitCommit maxSize commitId dryRun).toOption.map fun r => { s with
        source := r.2
        -- the operations of a dry run are for no commit
        uploads := if dryRun then s.uploads else s.uploads ++ uploadsOf s.disk r.1 }
    else none
  | .fastForward =>
    let r := s.pulledClone.fastForward batches
    some { s with clone := r.1, raised := r.2, pulled := s.uploads.length }

end Step

/-- Every committed file has the committed part of its source, and every blob was used once. -/
structure RoundTrips (s : History) : Prop where
  raised : s.raised = none
  sizes : ∀ path, s.clone.avc.getCommittedFileSize path = s.source.getCommittedFileSize path
  files : ∀ path size, s.source.getCommittedFileSize path = .ok (some size) → ∃ content,
    s.disk (s.source.dataToplevel.join path).normpath = .regular content ∧
    0 ≤ size ∧ size ≤ content.length ∧
    s.clone.tree.get (s.clone.absDst path) = .ok (.file (content.take size.toNat))
  blobs : ∀ u ∈ s.uploads, s.clone.consumed.count (s.clone.blobPath u.name) = 1 ∧
    s.clone.tree (s.clone.blobPath u.name).normpath = none

/-- In the clone the directory of every committed path exists, no directory and no file of `avc`
is at its place, and no other committed path has that place. -/
structure Placeable (clone : Clone) (paths : List Path) (names : List BlobName) : Prop where
  reached : ∀ p ∈ paths, clone.tree.blocked (clone.absDst p) = none
  notDirectory : ∀ p ∈ paths, clone.tree.isDirectory (clone.absDst p).normpath = false
  notOwn : ∀ p ∈ paths,
    (clone.absDst p).normpath ∉ (clone.ownFiles names).map Path.normpath
  distinct : ∀ p ∈ paths, ∀ q ∈ paths,
    (clone.absDst p).normpath = (clone.absDst q).normpath → p = q

/-- A fast-forward finds a place for every committed file. -/
def Meets (s : History) : HistoryAction → Prop
  | .fastForward => Placeable s.pulledClone (s.source.globalDb.commitChanges.map CommitChange.path)
      (s.uploads.map Upload.name)
  | _ => True

instance (clone : Clone) (paths : List Path) (names : List BlobName) :
    Decidable (Placeable clone paths names) :=
  decidable_of_iff ((∀ p ∈ paths, clone.tree.blocked (clone.absDst p) = none) ∧
    (∀ p ∈ paths, clone.tree.isDirectory (clone.absDst p).normpath = false) ∧
    (∀ p ∈ paths, (clone.absDst p).normpath ∉ (clone.ownFiles names).map Path.normpath) ∧
    ∀ p ∈ paths, ∀ q ∈ paths, (clone.absDst p).normpath = (clone.absDst q).normpath → p = q)
    ⟨fun h => ⟨h.1, h.2.1, h.2.2.1, h.2.2.2⟩,
      fun h => ⟨h.reached, h.notDirectory, h.notOwn, h.distinct⟩⟩

instance (s : History) : (a : HistoryAction) → Decidable (s.Meets a)
  | .fastForward => inferInstanceAs (Decidable (Placeable s.pulledClone
      (s.source.globalDb.commitChanges.map CommitChange.path) (s.uploads.map Upload.name)))
  | .grow .. => isTrue trivial
  | .add .. => isTrue trivial
  | .resetStaged => isTrue trivial
  | .buildGitCommit .. => isTrue trivial

/-! ## The invariant -/

/-- The clone is where the given commits have taken it. -/
structure Behind (s : History) (older : List Commit) : Prop where
  suffix : older <:+ s.source.globalDb.commits
  head : Line older s.clone.avc.localDb.head
  staged : s.clone.avc.localDb.stagedChanges = []
  follows : s.clone.Follows s.bytes (fun path => s.source.globalDb.sizeAlong path older) s.clone.tree
  pulled : s.pulled ≤ s.uploads.length
  old : ∀ u ∈ s.uploads.take s.pulled, ∃ c ∈ older, c.id = u.name.commitId
  new : ∀ u ∈ s.uploads.drop s.pulled, ∀ c ∈ older, c.id ≠ u.name.commitId
  used : ∀ u ∈ s.uploads.take s.pulled,
    s.clone.tree (s.clone.blobPath u.name).normpath = none ∧
      s.clone.consumed.count (s.clone.blobPath u.name) = 1
  taken : ∀ p ∈ s.clone.consumed, ∃ u ∈ s.uploads.take s.pulled, p = s.clone.blobPath u.name

structure Sound (s : History) : Prop where
  staged : s.source.Staged
  sourced : ∀ r ∈ s.source.localDb.stagedChanges, r.Sourced s.source.dataToplevel s.disk
  uploaded : Uploaded s.bytes s.source.globalDb.commitChanges s.uploads
  rows : ∀ commit ∈ s.source.globalDb.commits, s.source.globalDb.rowsOf commit.id ≠ []
  digests : ∀ commit ∈ s.source.globalDb.commits, IsHexDigest commit.id
  regular : ∀ c ∈ s.source.globalDb.commitChanges, ∃ content,
    s.disk (s.source.dataToplevel.join c.path).normpath = .regular content
  behind : ∃ older, s.Behind older

namespace Sound

variable {s s' : History} {maxSize : ℤ} {batches : BatchOrder}

theorem initial (sourceData cloneData : Path) (disk : Disk) (repoToplevel : Toplevel)
    (tree : FileTree) : (initial sourceData cloneData disk repoToplevel tree).Sound where
  staged := .init sourceData
  sourced r hr := absurd hr List.not_mem_nil
  uploaded := {
    commit := fun c hc => absurd hc List.not_mem_nil
    backed := fun c hc => absurd hc List.not_mem_nil
    owned := .nil
    used := fun u hu => absurd hu List.not_mem_nil
    nodup := List.nodup_nil }
  rows commit hcommit := absurd hcommit List.not_mem_nil
  digests commit hcommit := absurd hcommit List.not_mem_nil
  regular c hc := absurd hc List.not_mem_nil
  behind := ⟨[], {
    suffix := List.suffix_refl _
    head := .root
    staged := rfl
    follows := fun path n hn => by cases hn
    pulled := Nat.le_refl _
    old := fun u hu => absurd hu List.not_mem_nil
    new := fun u hu => absurd hu List.not_mem_nil
    used := fun u hu => absurd hu List.not_mem_nil
    taken := fun p hp => absurd hp List.not_mem_nil }⟩

theorem size_bounds (h : s.Sound) {path : Path} {commits : List Commit} {n : ℤ}
    (hn : s.source.globalDb.sizeAlong path commits = some n) :
    0 ≤ n ∧ n ≤ (s.bytes path).length := by
  obtain ⟨c, hc, rfl, rfl⟩ := GlobalDb.sizeAlong_some hn
  obtain ⟨content, -, hbacked⟩ := h.uploaded.backed c hc
  exact ⟨add_nonneg hbacked.startOffset_nonneg hbacked.numBytes_nonneg, hbacked.within⟩

theorem grow (h : s.Sound) (path : Path) (more : Bytes) :
    ({ s with disk := s.disk.append path more } : History).Sound where
  staged := h.staged
  sourced r hr := (h.sourced r hr).append path more
  uploaded := h.uploaded.mono fun p => sourceOf_append path more p
  rows := h.rows
  digests := h.digests
  regular c hc := by
    obtain ⟨content, hcontent⟩ := h.regular c hc
    obtain ⟨rest, hrest⟩ := Disk.append_regular path more hcontent
    exact ⟨_, hrest⟩
  behind := by
    obtain ⟨older, hbehind⟩ := h.behind
    refine ⟨older, { hbehind with follows := fun p n hn => ?_ }⟩
    have hbounds := h.size_bounds hn
    obtain ⟨rest, hrest⟩ : s.bytes p <+: sourceOf s.source.dataToplevel (s.disk.append path more) p :=
      sourceOf_append path more p
    have hsame : (sourceOf s.source.dataToplevel (s.disk.append path more) p).take n.toNat =
        (s.bytes p).take n.toNat := by
      rw [← hrest, List.take_append_of_le_length (by omega)]
    change s.clone.tree.Holds _ ((sourceOf s.source.dataToplevel (s.disk.append path more) p).take _)
    rw [hsame]
    exact hbehind.follows p n hn

/-- The staged changes are nothing to the clone. -/
theorem withStaged (h : s.Sound) {rows : List StagedChange} (hstaged : (s.source.withStaged rows).Staged)
    (hsourced : ∀ r ∈ rows, r.Sourced s.source.dataToplevel s.disk) :
    ({ s with source := s.source.withStaged rows } : History).Sound where
  staged := hstaged
  sourced := hsourced
  uploaded := h.uploaded
  rows := h.rows
  digests := h.digests
  regular := h.regular
  behind := by
    obtain ⟨older, hbehind⟩ := h.behind
    exact ⟨older, { hbehind with }⟩

theorem resetStaged (h : s.Sound) : ({ s with source := s.source.resetStaged } : History).Sound := by
  refine h.withStaged ⟨h.staged.chained.withStaged [], List.nodup_nil, ?_⟩ ?_
  · exact fun r hr => absurd hr List.not_mem_nil
  · exact fun r hr => absurd hr List.not_mem_nil

theorem add (h : s.Sound) {path : Path} {numBytes : Option ℤ} {source : Avc}
    (hextends : s.strictlyExtends path numBytes)
    (hadd : s.source.add s.disk path numBytes = .ok source) :
    ({ s with source := source } : History).Sound := by
  have hnodup := h.staged.add_nodup hadd
  have hiff := h.staged.add_iff hadd
  obtain ⟨requested, rows, hrequested, hrows, rfl⟩ := add_ok h.staged.chained hadd
  obtain ⟨content, hfile, hle⟩ := requestedBytes_ok hrequested
  rw [strictlyExtends, hrequested, h.staged.chained.getCommittedFileSize] at hextends
  have hmeets : (SourceAction.add s.disk path numBytes).Meets s.source := by
    rw [SourceAction.Meets, hrequested, h.staged.chained.getCommittedFileSize]
    cases hsize : s.source.committedSize path with
    | none => trivial
    | some size =>
      rw [hsize] at hextends
      exact Or.inr (by simpa using hextends)
  refine h.withStaged ⟨hnodup.1, hnodup.2, hiff.mpr hmeets⟩ ?_
  apply stage_sourced hrows h.sourced (h.staged.continues_path path) rfl hfile hle
  · cases hsize : s.source.committedSize path with
    | none =>
      rw [hsize] at hextends
      simpa using hextends
    | some size =>
      rw [hsize] at hextends
      have hlt : size < requested := by simpa using hextends
      exact hlt.le
  · cases hsize : s.source.committedSize path with
    | none => exact le_rfl
    | some size => exact (h.size_bounds hsize).1

theorem record (h : s.Sound) (hmax : 0 < maxSize) {commitId : CommitId} {p : Packing} {source : Avc}
    (hdigest : IsHexDigest commitId) (hstaged : s.source.localDb.stagedChanges ≠ [])
    (hbuild : buildChanges maxSize commitId s.source.localDb.stagedChanges = .ok p)
    (hrecord : s.source.recordCommit commitId p.allCommitChanges = .ok source) :
    ({ s with
      source
      uploads := s.uploads ++ uploadsOf s.disk p.requiredGitOperations } : History).Sound := by
  have hchained := h.staged.chained
  have hrecords := buildChanges_records h.staged.nodup hbuild
  have huploaded := buildChanges_uploaded hmax h.staged.nodup h.sourced hbuild
  have hkept := h.staged.record hmax hbuild hrecord
  have hsize : ∀ path older, older <:+ s.source.globalDb.commits →
      source.globalDb.sizeAlong path older = s.source.globalDb.sizeAlong path older :=
    fun path older hsuffix => GlobalDb.sizeAlong_congr fun c hc =>
      (hchained.changesOf_record path hrecords.commit hrecord).2 c (hsuffix.subset hc)
  have hne : p.allCommitChanges ≠ [] := by
    obtain ⟨r, hr⟩ := List.exists_mem_of_ne_nil _ hstaged
    have hfits := buildChanges_fits hmax h.staged.nodup h.staged.continues hbuild hr
    rintro hnil
    rw [hnil] at hfits
    exact hfits.nonempty rfl
  have hnames : ∀ u ∈ uploadsOf s.disk p.requiredGitOperations, u.name.commitId = commitId := by
    intro u hu
    obtain ⟨c, hc, heq⟩ := huploaded.used u hu
    rw [← heq, huploaded.commit c hc, hrecords.commit c hc]
  obtain ⟨hfresh, rfl⟩ := recordCommit_ok hrecord
  exact {
    staged := hkept
    sourced := fun r hr => absurd hr List.not_mem_nil
    uploaded := by
      apply h.uploaded.append huploaded
      intro c hc d hd heq
      obtain ⟨commit, hcommit, hid⟩ := hchained.owned c hc
      exact hfresh commit hcommit (hid.trans (heq.trans (hrecords.commit d hd)))
    rows := by
      rw [List.forall_mem_cons]
      constructor
      · obtain ⟨c, hc⟩ := List.exists_mem_of_ne_nil _ hne
        exact List.ne_nil_of_mem
          (GlobalDb.mem_rowsOf.mpr ⟨List.mem_append_right _ hc, hrecords.commit c hc⟩)
      · intro commit hcommit
        obtain ⟨c, hc⟩ := List.exists_mem_of_ne_nil _ (h.rows commit hcommit)
        obtain ⟨hc, hid⟩ := GlobalDb.mem_rowsOf.mp hc
        exact List.ne_nil_of_mem (GlobalDb.mem_rowsOf.mpr ⟨List.mem_append_left _ hc, hid⟩)
    digests := by
      rw [List.forall_mem_cons]
      exact ⟨hdigest, h.digests⟩
    regular := by
      rw [List.forall_mem_append]
      refine ⟨h.regular, ?_⟩
      intro c hc
      obtain ⟨r, hr, hpath⟩ := List.mem_map.mp (buildChanges_path_mem h.staged.nodup hbuild hc)
      obtain ⟨content, hcontent, -⟩ := (h.sourced r hr).readable.file
      refine ⟨content, ?_⟩
      rw [← hcontent, ← hpath, ← (h.sourced r hr).backingPath]
      rfl
    behind := by
      obtain ⟨older, hbehind⟩ := h.behind
      have htake : (s.uploads ++ uploadsOf s.disk p.requiredGitOperations).take s.pulled =
          s.uploads.take s.pulled := List.take_append_of_le_length hbehind.pulled
      refine ⟨older, ?_⟩
      exact {
        suffix := hbehind.suffix.trans (List.suffix_cons _ _)
        head := hbehind.head
        staged := hbehind.staged
        follows := by
          intro path n hn
          dsimp only at hn
          rw [hsize path older hbehind.suffix] at hn
          exact hbehind.follows path n hn
        pulled := by
          rw [List.length_append]
          exact Nat.le_add_right_of_le hbehind.pulled
        old := by
          rw [htake]
          exact hbehind.old
        new := by
          dsimp only
          rw [List.drop_append_of_le_length hbehind.pulled, List.forall_mem_append]
          refine ⟨hbehind.new, ?_⟩
          intro u hu c hc heq
          rw [hnames u hu] at heq
          exact hfresh c (hbehind.suffix.subset hc) heq
        used := by
          rw [htake]
          exact hbehind.used
        taken := by
          rw [htake]
          exact hbehind.taken } }

theorem build (h : s.Sound) (hmax : 0 < maxSize) {commitId : CommitId} {dryRun : Bool} {source : Avc}
    {ops : List VirtualAddOperation} (hdigest : IsHexDigest commitId)
    (hbuild : s.source.buildGitCommit maxSize commitId dryRun = .ok (ops, source)) :
    ({ s with
      source
      uploads := if dryRun then s.uploads else s.uploads ++ uploadsOf s.disk ops } : History).Sound := by
  rcases buildGitCommit_cases hbuild with ⟨rfl, rfl⟩ | ⟨hstaged, p, hp, rfl, hlast⟩
  · have hnone : (if dryRun then s.uploads else s.uploads ++ uploadsOf s.disk []) = s.uploads := by
      split_ifs
      · rfl
      · exact List.append_nil _
    rw [hnone]
    exact h
  · split_ifs at hlast ⊢ with hdry
    · rw [hlast]
      exact h
    · have hsame : uploadsOf s.disk (p.requiredGitOperations ++ [databaseOperation]) =
          uploadsOf s.disk p.requiredGitOperations := by
        simp [uploadsOf, databaseOperation, List.filterMap_append]
      rw [hsame]
      exact h.record hmax hdigest hstaged hp hlast

theorem commit_mem (h : s.Sound) {u : Upload} (hu : u ∈ s.uploads) :
    ∃ c ∈ s.source.globalDb.commits, c.id = u.name.commitId := by
  obtain ⟨c, hc, heq⟩ := h.uploaded.used u hu
  obtain ⟨commit, hcommit, hid⟩ := h.staged.chained.owned c hc
  exact ⟨commit, hcommit, by rw [hid, ← heq, h.uploaded.commit c hc]⟩

theorem digest_of_upload (h : s.Sound) {u : Upload} (hu : u ∈ s.uploads) :
    IsHexDigest u.name.commitId := by
  obtain ⟨commit, hcommit, hid⟩ := h.commit_mem hu
  exact hid ▸ h.digests commit hcommit

/-- A pull brings the clone everything that the commits after its own need. -/
theorem mirrors (h : s.Sound) {older : List Commit} (hbehind : s.Behind older)
    (hmeets : s.Meets .fastForward) : Mirrors s.source s.bytes
      {p | p ∈ s.source.globalDb.commitChanges.map CommitChange.path} s.uploads older
      s.pulledClone := by
  have hplace : Placeable s.pulledClone (s.source.globalDb.commitChanges.map CommitChange.path)
    (s.uploads.map Upload.name) := hmeets
  have htakeDrop := List.take_append_drop s.pulled s.uploads
  have hdrop : ∀ u ∈ s.uploads.drop s.pulled, u ∈ s.uploads := fun u => List.mem_of_mem_drop
  have hnotBlob : ∀ p ∈ s.source.globalDb.commitChanges.map CommitChange.path, ∀ u ∈ s.uploads,
      (s.clone.absDst p).normpath ≠ (s.clone.blobPath u.name).normpath := by
    intro p hp u hu heq
    apply hplace.notOwn p hp
    refine List.mem_map.mpr ⟨s.clone.blobPath u.name, ?_, heq.symm⟩
    exact List.mem_append_right _ (List.mem_map_of_mem (List.mem_map_of_mem hu))
  -- a blob is pulled before or now, as its commit has been applied or not
  have hsides : ∀ u ∈ s.uploads, u ∈ s.uploads.take s.pulled ∨ u ∈ s.uploads.drop s.pulled := by
    intro u hu
    rw [← htakeDrop] at hu
    exact List.mem_append.mp hu
  exact {
    db := rfl
    staged := hbehind.staged
    head := hbehind.head
    apart := {
      reached := hplace.reached
      notDirectory := hplace.notDirectory
      notBlob := by
        intro p hp name hname
        obtain ⟨u, hu, rfl⟩ := List.mem_map.mp hname
        exact hnotBlob p hp u hu
      files := hplace.distinct
      blobs := by
        intro m hm n hn heq
        obtain ⟨u, hu, rfl⟩ := List.mem_map.mp hm
        obtain ⟨v, hv, rfl⟩ := List.mem_map.mp hn
        exact Clone.normpath_blobPath_inj (h.digest_of_upload hu) (h.digest_of_upload hv) heq }
    follows := by
      intro path n hn
      obtain ⟨c, hc, rfl, -⟩ := GlobalDb.sizeAlong_some hn
      have hpath : c.path ∈ s.source.globalDb.commitChanges.map CommitChange.path :=
        List.mem_map_of_mem hc
      have hsame := Clone.pull_other (fun u hu => hnotBlob _ hpath u (hdrop u hu))
        (hplace.notDirectory _ hpath)
      exact ⟨hplace.reached _ hpath, hsame.trans (hbehind.follows _ n hn).file⟩
    waiting := by
      intro u hu hid
      have hnew : u ∈ s.uploads.drop s.pulled := by
        refine (hsides u hu).resolve_left fun hold => ?_
        obtain ⟨c, hc, heq⟩ := hbehind.old u hold
        exact hid c hc heq
      constructor
      · apply Clone.pull_holds (fun v hv => h.digest_of_upload (hdrop v hv)) _ u hnew
        exact h.uploaded.nodup.sublist ((List.drop_sublist _ _).map _)
      · apply List.count_eq_zero_of_not_mem
        intro hmem
        obtain ⟨v, hv, heq⟩ := hbehind.taken _ hmem
        have hname : u.name = v.name := Clone.blobPath_injective (h.digest_of_upload hu)
          (h.digest_of_upload (List.mem_of_mem_take hv)) heq
        obtain ⟨c, hc, hcid⟩ := hbehind.old v hv
        exact hid c hc (by rw [hcid, hname])
    used := by
      rintro u hu ⟨c, hc, hcid⟩
      have hold : u ∈ s.uploads.take s.pulled :=
        (hsides u hu).resolve_right fun hnew => hbehind.new u hnew c hc hcid
      have hdigest := h.digest_of_upload hu
      refine ⟨?_, (hbehind.used u hold).2⟩
      rw [← (hbehind.used u hold).1]
      apply Clone.pull_apart
      · intro v hv heq
        have hname := Clone.normpath_blobPath_inj hdigest (h.digest_of_upload (hdrop v hv)) heq
        exact hbehind.new v hv c hc (by rw [hcid, hname])
      · intro v hv
        exact s.clone.not_mem_leading hdigest (h.digest_of_upload (hdrop v hv))
    taken := by
      intro p hp
      obtain ⟨u, hu, heq⟩ := hbehind.taken p hp
      exact ⟨u, List.mem_of_mem_take hu, heq⟩ }

theorem fastForward (h : s.Sound) (hmeets : s.Meets .fastForward)
    (hstep : s.step maxSize batches .fastForward = some s') : s'.Sound ∧ s'.RoundTrips := by
  obtain ⟨older, hbehind⟩ := h.behind
  have hchained := h.staged.chained
  obtain ⟨clone, hrun, hdone⟩ := (h.mirrors hbehind hmeets).fastForward hchained h.uploaded
    (fun c hc => List.mem_map_of_mem hc) h.rows batches hbehind.suffix
  have heq : s' = { s with clone, raised := none, pulled := s.uploads.length } := by
    rw [History.step, hrun] at hstep
    exact (Option.some.inj hstep).symm
  subst heq
  have hhead : clone.avc.localDb.head = s.source.localDb.head := by
    rw [hdone.head.head_eq, hchained.line.head_eq]
  have hsizes : ∀ path,
      clone.avc.getCommittedFileSize path = s.source.getCommittedFileSize path := by
    intro path
    rw [Avc.getCommittedFileSize, Avc.getCommittedFileSize, hdone.db, hhead]
  constructor
  · exact {
      staged := h.staged
      sourced := h.sourced
      uploaded := h.uploaded
      rows := h.rows
      digests := h.digests
      regular := h.regular
      behind := by
        refine ⟨s.source.globalDb.commits, ?_⟩
        exact {
          suffix := List.suffix_refl _
          head := hdone.head
          staged := hdone.staged
          follows := hdone.follows
          pulled := Nat.le_refl _
          old := fun u hu => h.commit_mem (List.mem_of_mem_take hu)
          new := by
            intro u hu
            dsimp only at hu
            rw [List.drop_length] at hu
            exact absurd hu List.not_mem_nil
          used := fun u hu =>
            hdone.used u (List.mem_of_mem_take hu) (h.commit_mem (List.mem_of_mem_take hu))
          taken := by
            dsimp only
            rw [List.take_length]
            exact hdone.taken } }
  · refine ⟨rfl, hsizes, ?_, fun u hu => (hdone.used u hu (h.commit_mem hu)).symm⟩
    intro path size hsize
    have hcommitted : s.source.committedSize path = some size := by
      have hline := hchained.getCommittedFileSize path
      dsimp only at hsize
      rw [hsize] at hline
      exact (Except.ok.inj hline).symm
    obtain ⟨c, hc, rfl, -⟩ := GlobalDb.sizeAlong_some hcommitted
    obtain ⟨content, hcontent⟩ := h.regular c hc
    have hbytes : s.bytes c.path = content := by
      rw [History.bytes, sourceOf, hcontent]
    have hbounds := h.size_bounds hcommitted
    have hfile := (hdone.follows c.path size hcommitted).get
    rw [hbytes] at hbounds hfile
    exact ⟨content, hcontent, hbounds.1, hbounds.2, hfile⟩

theorem step (h : s.Sound) (hmax : 0 < maxSize) {a : HistoryAction} (hmeets : s.Meets a)
    (hstep : s.step maxSize batches a = some s') : s'.Sound := by
  cases a with
  | grow path bytes =>
    cases hstep
    exact h.grow path bytes
  | add path numBytes =>
    rw [History.step] at hstep
    split_ifs at hstep with hextends
    obtain ⟨source, hsource, rfl⟩ := Option.map_eq_some_iff.mp hstep
    exact h.add hextends (ok_of_toOption hsource)
  | resetStaged =>
    cases hstep
    exact h.resetStaged
  | buildGitCommit commitId dryRun =>
    rw [History.step] at hstep
    by_cases hdigest : IsHexDigest commitId
    · rw [if_pos hdigest] at hstep
      obtain ⟨r, hr, rfl⟩ := Option.map_eq_some_iff.mp hstep
      exact h.build hmax hdigest (ok_of_toOption hr)
    · rw [if_neg hdigest] at hstep
      cases hstep
  | fastForward => exact (h.fastForward hmeets hstep).1

end Sound

/-- In every run whose fast-forwards find a place for each committed file, each of them leaves the
clone with the committed part of every file, and every blob used once. -/
theorem roundTrips_of_run (maxSize : ℤ) (hmax : 1 ≤ maxSize) (batches : BatchOrder)
    (sourceData cloneData : Path) (disk : Disk) (repoToplevel : Toplevel) (tree : FileTree)
    {s s' : History} (hrun : Runs.Reach (step maxSize batches) Meets
      (initial sourceData cloneData disk repoToplevel tree) s)
    (hmeets : s.Meets .fastForward) (hstep : s.step maxSize batches .fastForward = some s') :
    s'.RoundTrips := by
  have hsound : s.Sound := by
    apply hrun.invariant (Sound.initial sourceData cloneData disk repoToplevel tree)
    intro t a t' ht hcond htaken
    exact ht.step hmax hcond htaken
  exact (hsound.fastForward hmeets hstep).2

/-- The order in which the changes were recorded. -/
def recordedOrder : BatchOrder where
  order := List.insertionSort fun c d => c.batchId ≤ d.batchId
  perm := List.perm_insertionSort _
  sorted := List.pairwise_insertionSort _

/-- A clone with its data in its own directory, which has nothing else in it. -/
def freshClone (disk : Disk) : History :=
  initial ⟨true, ["data"]⟩ ⟨true, ["clone"]⟩ disk ⟨⟨true, ["clone"]⟩, by simp [Path.Plain]⟩
    fun p => if p = ⟨true, []⟩ ∨ p = ⟨true, ["clone"]⟩ then some (.directory 0) else none

def digestOf (c : Char) : CommitId := String.ofList (List.replicate 64 c)

/-- A file that is split, a fast-forward, and two files whose bytes share a blob. -/
def twoCommits : List HistoryAction :=
  [.grow ⟨true, ["data", "a.bin"]⟩ [1, 2, 3, 4], .add ⟨false, ["a.bin"]⟩ none,
    .buildGitCommit (digestOf 'a') false, .fastForward, .grow ⟨true, ["data", "a.bin"]⟩ [5],
    .grow ⟨true, ["data", "b.bin"]⟩ [6, 7, 8, 9], .add ⟨false, ["a.bin"]⟩ none,
    .add ⟨false, ["b.bin"]⟩ none, .buildGitCommit (digestOf 'b') false]

theorem roundTrips_twoCommits : ∃ s s',
    Runs.perform (step 3 recordedOrder) (freshClone fun _ => .missing) twoCommits = some s ∧
      s.step 3 recordedOrder .fastForward = some s' ∧ s'.RoundTrips := by
  have hrun : (Runs.performIf (step 3 recordedOrder) Meets (freshClone fun _ => .missing)
      twoCommits).any (fun s => decide (s.Meets .fastForward)) := by
    set_option maxRecDepth 100000 in decide +kernel
  obtain ⟨s, hs, hmeets⟩ := (Option.any_eq_true _ _).mp hrun
  exact ⟨s, _, (Runs.meets_of_performIf hs).1, rfl, roundTrips_of_run 3 (by decide) recordedOrder _ _
    _ _ _ (Runs.reach_of_performIf hs) (of_decide_eq_true hmeets) rfl⟩

/-- A file in a directory that the clone does not have. -/
def subdirectory : List HistoryAction :=
  [.grow ⟨true, ["data", "sub", "a.bin"]⟩ [1], .add ⟨false, ["sub", "a.bin"]⟩ none,
    .buildGitCommit (digestOf 'a') false, .fastForward]

example : (Runs.perform (step deployedMaxSize recordedOrder) (freshClone fun _ => .missing)
    subdirectory).map raised = some (some (.avc .fileNotFoundError)) := by
  decide +kernel

end History

end NpmFollower.DatabaseExporting
