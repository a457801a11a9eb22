import NpmFollower.Library.Rows
import NpmFollower.DatabaseExporting.CommitRows

/-! # Committed sizes along the chain of commits

The commits form one line from `HEAD` to the first of them. The walk of
`get_committed_file_size` then ends, with the size that the latest commit of a
path has left; a new commit and an abort change that size at one end of the line.
-/

namespace NpmFollower.DatabaseExporting

open Tiling

/-- The commits from the latest to the first, each with the next as its parent. -/
inductive Line : List Commit → Option CommitId → Prop where
  | root : Line [] none
  | commit {id : CommitId} {parent : Option CommitId} {older : List Commit}
      (fresh : ∀ c ∈ older, c.id ≠ id) (rest : Line older parent) : Line (⟨id, parent⟩ :: older) (some id)

theorem Line.nodup {commits : List Commit} {head : Option CommitId} (h : Line commits head) :
    (commits.map Commit.id).Nodup := by
  induction h with
  | root => exact List.nodup_nil
  | commit fresh _ ih =>
    rw [List.map_cons, List.nodup_cons]
    refine ⟨?_, ih⟩
    intro hmem
    obtain ⟨c, hc, heq⟩ := List.mem_map.mp hmem
    exact fresh c hc heq

namespace GlobalDb

variable {db db' : GlobalDb} {path : Path} {commits : List Commit}

/-- The size that the first of the given commits to have changed the path has left. -/
def sizeAlong (db : GlobalDb) (path : Path) : List Commit → Option ℤ
  | [] => none
  | c :: older =>
    match (db.changesOf c.id path).argmax (·.batchId) with
    | some row => some (row.startOffset + row.numBytes)
    | none => db.sizeAlong path older

theorem sizeAlong_unchanged {c : Commit} (h : db.changesOf c.id path = []) :
    db.sizeAlong path (c :: commits) = db.sizeAlong path commits := by
  rw [sizeAlong, h, List.argmax_nil]

theorem sizeAlong_congr (h : ∀ c ∈ commits, db'.changesOf c.id path = db.changesOf c.id path) :
    db'.sizeAlong path commits = db.sizeAlong path commits := by
  induction commits with
  | nil => rfl
  | cons c commits ih =>
    rw [List.forall_mem_cons] at h
    rw [sizeAlong, sizeAlong, h.1, ih h.2]

theorem getParent_of_mem {commit : Commit} (hnodup : (db.commits.map Commit.id).Nodup)
    (h : commit ∈ db.commits) : db.getParent commit.id = .ok commit.parentId := by
  have hfind := Rows.find_of_mem hnodup h
  unfold getParent
  simp only [Rows.find] at hfind
  rw [hfind]

/-- The walk from the head of a line gives the size along it. -/
theorem committedFileSize_line {head : Option CommitId} (h : Line commits head)
    (hsuffix : commits <:+ db.commits) (hnodup : (db.commits.map Commit.id).Nodup) {fuel : ℕ}
    (hfuel : commits.length ≤ fuel) :
    db.committedFileSize path fuel head = .ok (db.sizeAlong path commits) := by
  induction h generalizing fuel with
  | root => cases fuel <;> rfl
  | @commit id parent older fresh rest ih =>
    cases fuel with
    | zero => simp at hfuel
    | succ fuel =>
      rw [committedFileSize, sizeAlong]
      cases (db.changesOf id path).argmax (·.batchId) with
      | some row => rfl
      | none =>
        have hparent : db.getParent id = .ok parent :=
          getParent_of_mem hnodup (hsuffix.subset List.mem_cons_self)
        rw [hparent]
        apply ih ((List.suffix_cons _ _).trans hsuffix)
        simp only [List.length_cons] at hfuel
        omega

/-- The latest of rows in their order is the last one. -/
theorem argmax_last {rows : List CommitChange} {row : CommitChange}
    (h : (rows ++ [row]).Pairwise fun c d => c.batchId < d.batchId) :
    (rows ++ [row]).argmax (·.batchId) = some row := by
  rw [List.argmax_concat]
  cases hrows : rows.argmax (·.batchId) with
  | none => rfl
  | some c =>
    rw [List.pairwise_append] at h
    have hlt := h.2.2 c (List.argmax_mem hrows) row (List.mem_singleton_self row)
    exact if_pos hlt

/-- Rows that lie end to end leave the size where they end. -/
theorem argmax_of_tiles {rows : List CommitChange} {a b : ℤ} (hne : rows ≠ [])
    (hordered : rows.Pairwise fun c d => c.batchId < d.batchId)
    (htiles : ExtentTiles a b (rows.map CommitChange.extent)) :
    ∃ row, rows.argmax (·.batchId) = some row ∧ row.startOffset + row.numBytes = b := by
  induction rows using List.reverseRecOn with
  | nil => exact absurd rfl hne
  | append_singleton rows row =>
    rw [List.map_append] at htiles
    exact ⟨row, argmax_last hordered, htiles.last⟩

end GlobalDb

/-- The size of a path at `HEAD`. -/
def Avc.committedSize (avc : Avc) (path : Path) : Option ℤ :=
  avc.globalDb.sizeAlong path avc.globalDb.commits

/-- One line of commits, whose changes take every file on from its size before them. -/
structure Avc.Chained (avc : Avc) : Prop where
  line : Line avc.globalDb.commits avc.localDb.head
  main : avc.globalDb.main = avc.localDb.head
  owned : ∀ c ∈ avc.globalDb.commitChanges, ∃ commit ∈ avc.globalDb.commits, commit.id = c.commitId
  ordered : avc.globalDb.commitChanges.Pairwise fun c d => c.commitId = d.commitId →
    c.batchId ≤ d.batchId ∧ (c.path = d.path → c.batchId < d.batchId)
  grows : ∀ commit older path, commit :: older <:+ avc.globalDb.commits →
    avc.globalDb.changesOf commit.id path ≠ [] →
    ∃ size, Fits (avc.globalDb.sizeAlong path older) size
      ((avc.globalDb.changesOf commit.id path).map CommitChange.extent)

namespace Avc.Chained

variable {avc avc' : Avc} {path : Path}

theorem getCommittedFileSize (h : avc.Chained) (path : Path) :
    avc.getCommittedFileSize path = .ok (avc.committedSize path) :=
  GlobalDb.committedFileSize_line h.line (List.suffix_refl _) h.line.nodup (Nat.le_refl _)

theorem changesOf_ordered (h : avc.Chained) (id : CommitId) (path : Path) :
    (avc.globalDb.changesOf id path).Pairwise fun c d => c.batchId < d.batchId := by
  have hpairs := h.ordered.sublist
    (List.filter_sublist : (avc.globalDb.changesOf id path).Sublist _)
  apply hpairs.imp_of_mem
  intro c d hc hd hcd
  simp only [List.mem_filter, decide_eq_true_eq] at hc hd
  exact (hcd (hc.2.1.trans hd.2.1.symm)).2 (hc.2.2.trans hd.2.2.symm)

/-- A commit that has changed a path has left the size its changes lead to. -/
theorem sizeAlong_changed (h : avc.Chained) {commit : Commit} {older : List Commit} {size : ℤ}
    {committed : Option ℤ}
    (hfits : Fits committed size ((avc.globalDb.changesOf commit.id path).map CommitChange.extent)) :
    avc.globalDb.sizeAlong path (commit :: older) = some size := by
  have hne : avc.globalDb.changesOf commit.id path ≠ [] := by
    intro hnil
    rw [hnil] at hfits
    exact hfits.nonempty rfl
  obtain ⟨row, hrow, hend⟩ :=
    GlobalDb.argmax_of_tiles hne (h.changesOf_ordered commit.id path) hfits.tiles
  rw [GlobalDb.sizeAlong, hrow]
  exact congrArg some hend

theorem init (dataToplevel : Path) : (Avc.init dataToplevel).Chained := by
  refine ⟨.root, rfl, ?_, .nil, ?_⟩
  · intro c hc
    exact absurd hc List.not_mem_nil
  · intro commit older path hsuffix
    exact absurd (List.eq_nil_of_suffix_nil hsuffix) (by simp)

theorem withStaged (h : avc.Chained) (rows : List StagedChange) : (avc.withStaged rows).Chained :=
  ⟨h.line, h.main, h.owned, h.ordered, h.grows⟩

end Avc.Chained

@[simp] theorem Avc.committedSize_withStaged (avc : Avc) (rows : List StagedChange) :
    (avc.withStaged rows).committedSize = avc.committedSize := rfl

section Record

variable {avc avc' : Avc} {maxSize : ℤ} {commitId : CommitId} {p : Packing} {path : Path}

theorem recordCommit_ok {changes : List CommitChange}
    (h : avc.recordCommit commitId changes = .ok avc') :
    (∀ c ∈ avc.globalDb.commits, c.id ≠ commitId) ∧ avc' = { avc with
      globalDb :=
        { commits := ⟨commitId, avc.localDb.head⟩ :: avc.globalDb.commits
          commitChanges := avc.globalDb.commitChanges ++ changes
          main := some commitId }
      localDb := ⟨[], some commitId⟩ } := by
  unfold Avc.recordCommit at h
  split_ifs at h with hany
  cases h
  refine ⟨?_, rfl⟩
  intro c hc heq
  exact hany (List.any_eq_true.mpr ⟨c, hc, by simpa using heq⟩)

/-- The changes that are new belong to the new commit, and the others stay. -/
theorem Avc.Chained.changesOf_record (h : avc.Chained) (path : Path) {changes : List CommitChange}
    (hcommit : ∀ c ∈ changes, c.commitId = commitId)
    (hrecord : avc.recordCommit commitId changes = .ok avc') :
    avc'.globalDb.changesOf commitId path = changes.filter (·.path = path) ∧
      ∀ c ∈ avc.globalDb.commits,
        avc'.globalDb.changesOf c.id path = avc.globalDb.changesOf c.id path := by
  obtain ⟨hfresh, rfl⟩ := recordCommit_ok hrecord
  simp only [GlobalDb.changesOf, List.filter_append]
  constructor
  · have hold : avc.globalDb.commitChanges.filter
        (fun c => decide (c.commitId = commitId ∧ c.path = path)) = [] := by
      rw [List.filter_eq_nil_iff]
      intro c hc
      obtain ⟨commit, hmem, hid⟩ := h.owned c hc
      have hne : c.commitId ≠ commitId := hid ▸ hfresh commit hmem
      simp [hne]
    rw [hold, List.nil_append]
    apply List.filter_congr
    intro c hc
    simp [hcommit c hc]
  · intro commit hmem
    have hnew : changes.filter (fun c => decide (c.commitId = commit.id ∧ c.path = path)) = [] := by
      rw [List.filter_eq_nil_iff]
      intro c hc
      have hne : commitId ≠ commit.id := (hfresh commit hmem).symm
      simp [hcommit c hc, hne]
    rw [hnew, List.append_nil]

variable (hmax : 0 < maxSize)
  (hnodup : (avc.localDb.stagedChanges.map StagedChange.path).Nodup)
  (hcontinues : ∀ s ∈ avc.localDb.stagedChanges, s.Continues (avc.committedSize s.path))
  (hbuild : buildChanges maxSize commitId avc.localDb.stagedChanges = .ok p)
  (hrecord : avc.recordCommit commitId p.allCommitChanges = .ok avc')

include hmax hnodup hcontinues hbuild hrecord

/-- The commit's changes of a staged path take it on to the end of the staged change. -/
theorem Avc.Chained.changesOf_staged (h : avc.Chained) {s : StagedChange}
    (hs : s ∈ avc.localDb.stagedChanges) :
    Fits (avc.committedSize s.path) (s.startOffset + s.numBytes)
      ((avc'.globalDb.changesOf commitId s.path).map CommitChange.extent) := by
  have hrecords := buildChanges_records hnodup hbuild
  rw [(h.changesOf_record s.path hrecords.commit hrecord).1]
  have hfits := buildChanges_fits hmax hnodup hcontinues hbuild hs
  rw [List.filter_map] at hfits
  exact hfits

theorem Avc.Chained.record (h : avc.Chained) : avc'.Chained := by
  have hrecords := buildChanges_records hnodup hbuild
  obtain ⟨hfresh, heq⟩ := recordCommit_ok hrecord
  have hold : ∀ path, ∀ c ∈ avc.globalDb.commits,
      avc'.globalDb.changesOf c.id path = avc.globalDb.changesOf c.id path :=
    fun path => (h.changesOf_record path hrecords.commit hrecord).2
  have hsize : ∀ path older, older <:+ avc.globalDb.commits →
      avc'.globalDb.sizeAlong path older = avc.globalDb.sizeAlong path older :=
    fun path older hsuffix =>
      GlobalDb.sizeAlong_congr fun c hc => hold path c (hsuffix.subset hc)
  constructor
  · rw [heq]
    exact .commit hfresh h.line
  · rw [heq]
  · intro c hc
    rw [heq] at hc ⊢
    rcases List.mem_append.mp hc with hc | hc
    · obtain ⟨commit, hmem, hid⟩ := h.owned c hc
      exact ⟨commit, List.mem_cons_of_mem _ hmem, hid⟩
    · exact ⟨_, List.mem_cons_self, (hrecords.commit c hc).symm⟩
  · rw [heq, List.pairwise_append]
    refine ⟨h.ordered, hrecords.ordered.imp fun {c d} hcd (_ : c.commitId = d.commitId) => hcd, ?_⟩
    intro c hc d hd hid
    obtain ⟨commit, hmem, hcid⟩ := h.owned c hc
    rw [hid, hrecords.commit d hd] at hcid
    exact absurd hcid (hfresh commit hmem)
  · intro commit older path hsuffix hne
    have hcommits : avc'.globalDb.commits = ⟨commitId, avc.localDb.head⟩ :: avc.globalDb.commits := by
      rw [heq]
    rw [hcommits] at hsuffix
    rcases List.suffix_cons_iff.mp hsuffix with hwhole | hsuffix
    · obtain ⟨rfl, rfl⟩ := List.cons.inj hwhole
      obtain ⟨c, hc⟩ := List.exists_mem_of_ne_nil _ hne
      rw [(h.changesOf_record path hrecords.commit hrecord).1, List.mem_filter, decide_eq_true_eq] at hc
      have hpath := buildChanges_path_mem hnodup hbuild hc.1
      obtain ⟨s, hs, hsp⟩ := List.mem_map.mp hpath
      rw [hc.2] at hsp
      rw [hsize path _ (List.suffix_refl _), ← hsp]
      exact ⟨_, h.changesOf_staged hmax hnodup hcontinues hbuild hrecord hs⟩
    · have hmem : commit ∈ avc.globalDb.commits := hsuffix.subset List.mem_cons_self
      rw [hold path commit hmem] at hne ⊢
      rw [hsize path older ((List.suffix_cons _ _).trans hsuffix)]
      exact h.grows commit older path hsuffix hne

/-- A commit leaves a staged path where its staged change ends. -/
theorem Avc.Chained.committedSize_staged (h : avc.Chained) {s : StagedChange}
    (hs : s ∈ avc.localDb.stagedChanges) :
    avc'.committedSize s.path = some (s.startOffset + s.numBytes) := by
  have hfits := h.changesOf_staged hmax hnodup hcontinues hbuild hrecord hs
  have hchained := h.record hmax hnodup hcontinues hbuild hrecord
  obtain ⟨-, heq⟩ := recordCommit_ok hrecord
  have hcommits : avc'.globalDb.commits = ⟨commitId, avc.localDb.head⟩ :: avc.globalDb.commits := by
    rw [heq]
  rw [Avc.committedSize, hcommits]
  exact hchained.sizeAlong_changed hfits

omit hmax hcontinues in
/-- A commit leaves every other path as it was. -/
theorem Avc.Chained.committedSize_unstaged (h : avc.Chained)
    (hpath : path ∉ avc.localDb.stagedChanges.map StagedChange.path) :
    avc'.committedSize path = avc.committedSize path := by
  have hrecords := buildChanges_records hnodup hbuild
  have hchanges := h.changesOf_record path hrecords.commit hrecord
  obtain ⟨-, heq⟩ := recordCommit_ok hrecord
  have hcommits : avc'.globalDb.commits = ⟨commitId, avc.localDb.head⟩ :: avc.globalDb.commits := by
    rw [heq]
  have hnone : avc'.globalDb.changesOf commitId path = [] := by
    rw [hchanges.1, List.filter_eq_nil_iff]
    intro c hc hcp
    rw [decide_eq_true_eq] at hcp
    exact hpath (hcp ▸ buildChanges_path_mem hnodup hbuild hc)
  rw [Avc.committedSize, hcommits, GlobalDb.sizeAlong_unchanged hnone]
  exact GlobalDb.sizeAlong_congr hchanges.2

end Record

section Abort

variable {avc avc' : Avc} {path : Path}

/-- An abort takes the latest commit and its changes away, and nothing else. -/
theorem Avc.Chained.abort_ok (h : avc.Chained) (habort : avc.abortLastCommit = .ok avc') :
    avc.localDb.head = none ∧ avc' = avc ∨ ∃ id parent older,
      avc.localDb.head = some id ∧ avc.globalDb.commits = ⟨id, parent⟩ :: older ∧
      Line older parent ∧ (∀ c ∈ older, c.id ≠ id) ∧ avc' = { avc with
        globalDb :=
          { commits := older
            commitChanges := avc.globalDb.commitChanges.filter (·.commitId ≠ id)
            main := parent }
        localDb := { avc.localDb with head := parent } } := by
  unfold Avc.abortLastCommit at habort
  have hline := h.line
  generalize hhead : avc.localDb.head = head at hline habort
  generalize hcommits : avc.globalDb.commits = commits at hline
  cases hline with
  | root =>
    cases habort
    exact Or.inl ⟨rfl, rfl⟩
  | @commit id parent older fresh rest =>
    right
    have hparent : avc.globalDb.getParent id = .ok parent := by
      unfold GlobalDb.getParent
      simp [hcommits]
    dsimp only at habort
    rw [hparent] at habort
    cases habort
    refine ⟨id, parent, older, rfl, rfl, rest, fresh, ?_⟩
    simp only [hcommits, Avc.mk.injEq, GlobalDb.mk.injEq, and_true, true_and]
    simpa using fresh

theorem GlobalDb.changesOf_filter {db : GlobalDb} {id id' : CommitId} (hne : id' ≠ id)
    {commits : List Commit} {main : Option CommitId} :
    GlobalDb.changesOf ⟨commits, db.commitChanges.filter (·.commitId ≠ id), main⟩ id' path =
      db.changesOf id' path := by
  simp only [GlobalDb.changesOf, List.filter_filter]
  apply List.filter_congr
  intro c _
  by_cases hc : c.commitId = id'
  · simp [hc, hne]
  · simp [hc]

theorem Avc.Chained.abort (h : avc.Chained) (habort : avc.abortLastCommit = .ok avc') :
    avc'.Chained := by
  rcases h.abort_ok habort with ⟨-, rfl⟩ | ⟨id, parent, older, -, hcommits, hline, hfresh, rfl⟩
  · exact h
  · have hsame : ∀ path, ∀ c ∈ older, GlobalDb.changesOf
        ⟨older, avc.globalDb.commitChanges.filter (·.commitId ≠ id), parent⟩ c.id path =
          avc.globalDb.changesOf c.id path :=
      fun path c hc => GlobalDb.changesOf_filter (hfresh c hc)
    refine ⟨hline, rfl, ?_, h.ordered.sublist List.filter_sublist, ?_⟩
    · intro c hc
      rw [List.mem_filter] at hc
      obtain ⟨commit, hmem, hid⟩ := h.owned c hc.1
      rw [hcommits] at hmem
      rcases List.mem_cons.mp hmem with rfl | hmem
      · exact absurd hid.symm (by simpa using hc.2)
      · exact ⟨commit, hmem, hid⟩
    · intro commit rest path hsuffix hne
      have hsub : ∀ c ∈ rest, c ∈ older := fun c hc =>
        hsuffix.subset (List.mem_cons_of_mem _ hc)
      rw [hsame path commit (hsuffix.subset List.mem_cons_self)] at hne ⊢
      rw [GlobalDb.sizeAlong_congr fun c hc => hsame path c (hsub c hc)]
      apply h.grows commit rest path _ hne
      rw [hcommits]
      exact hsuffix.trans (List.suffix_cons _ _)

/-- An abort gives a path back the size it had before the latest commit. -/
theorem Avc.Chained.committedSize_abort (h : avc.Chained) {id : CommitId} {parent : Option CommitId}
    {older : List Commit} (hcommits : avc.globalDb.commits = ⟨id, parent⟩ :: older)
    (habort : avc.abortLastCommit = .ok avc') :
    avc'.committedSize path = avc.globalDb.sizeAlong path older := by
  rcases h.abort_ok habort with ⟨hhead, -⟩ | ⟨id', parent', older', -, hcommits', -, hfresh, rfl⟩
  · have hline := h.line
    rw [hhead, hcommits] at hline
    cases hline
  · rw [hcommits] at hcommits'
    obtain ⟨hcommit, rfl⟩ := List.cons.inj hcommits'
    apply GlobalDb.sizeAlong_congr
    intro c hc
    exact GlobalDb.changesOf_filter (hfresh c hc)

end Abort

end NpmFollower.DatabaseExporting
