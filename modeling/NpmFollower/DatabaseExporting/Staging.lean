import NpmFollower.Library.Runs
import NpmFollower.DatabaseExporting.CommitChain

/-! # The staging area and the commits

A staged row should go on from the committed size of its path. Adding a file
with nothing new to add, and undoing a commit below a staged row, break this;
every other step of the source keeps it.
-/

namespace NpmFollower.DatabaseExporting

/-- What is done to the archive on the source. -/
inductive SourceAction where
  | add (disk : Disk) (path : Path) (numBytes : Option ℤ)
  | resetStaged
  | buildGitCommit (commitId : CommitId) (dryRun : Bool)
  | abortLastCommit

namespace SourceAction

/-- One step; an action that raises leaves the archive as it was and is none. -/
def step (maxSize : ℤ) (avc : Avc) : SourceAction → Option Avc
  | .add disk path numBytes => (avc.add disk path numBytes).toOption
  | .resetStaged => some avc.resetStaged
  | .buildGitCommit commitId dryRun => ((avc.buildGitCommit maxSize commitId dryRun).toOption).map Prod.snd
  | .abortLastCommit => avc.abortLastCommit.toOption

/-- An add of a committed file with no staged row has something new to add, and a commit
is not undone while a path that it changed is staged. -/
def Meets (avc : Avc) : SourceAction → Prop
  | .add disk path numBytes =>
    match avc.getCommittedFileSize path, avc.requestedBytes disk path numBytes with
    | .ok (some size), .ok requested =>
      path ∈ avc.localDb.stagedChanges.map StagedChange.path ∨ size < requested
    | _, _ => True
  | .abortLastCommit =>
    ∀ s ∈ avc.localDb.stagedChanges, ∀ id ∈ avc.localDb.head.toList,
      avc.globalDb.changesOf id s.path = []
  | _ => True

instance (avc : Avc) (a : SourceAction) : Decidable (a.Meets avc) := by
  cases a with
  | add disk path numBytes =>
    unfold Meets
    dsimp only
    split <;> infer_instance
  | resetStaged => exact .isTrue trivial
  | buildGitCommit => exact .isTrue trivial
  | abortLastCommit =>
    unfold Meets
    infer_instance

end SourceAction

/-- The staging area agrees with the commits, and what follows from that. -/
structure Avc.Consistent (maxSize : ℤ) (avc : Avc) : Prop where
  staged : ∀ s ∈ avc.localDb.stagedChanges, ∃ size,
    avc.getCommittedFileSize s.path = .ok size ∧ s.Continues size
  asserts : ∀ disk path numBytes, avc.add disk path numBytes ≠ .error .assertionError
  appends : ∀ c ∈ avc.globalDb.commitChanges, c.type = .append → 0 < c.numBytes
  grows : ∀ commitId dryRun ops avc' path size,
    avc.buildGitCommit maxSize commitId dryRun = .ok (ops, avc') →
    avc.getCommittedFileSize path = .ok (some size) →
    ∃ size', avc'.getCommittedFileSize path = .ok (some size') ∧ size ≤ size'

/-- The invariant behind it. -/
structure Avc.Staged (avc : Avc) : Prop where
  chained : avc.Chained
  nodup : (avc.localDb.stagedChanges.map StagedChange.path).Nodup
  continues : ∀ s ∈ avc.localDb.stagedChanges, s.Continues (avc.committedSize s.path)

section Stage

variable {path backingPath : Path} {numBytes : ℤ} {committed : Option ℤ}
  {rows rows' : List StagedChange}

theorem map_path_setNumBytes (rows : List StagedChange) :
    (setNumBytes path numBytes rows).map StagedChange.path = rows.map StagedChange.path := by
  rw [setNumBytes, List.map_map]
  apply List.map_congr_left
  intro s _
  simp only [Function.comp_apply]
  split_ifs <;> rfl

/-- The row of a path that is staged, and the others. -/
theorem mem_setNumBytes {s : StagedChange} (h : s ∈ setNumBytes path numBytes rows) :
    (∃ r ∈ rows, r.path = path ∧ s = { r with numBytes := numBytes }) ∨ s.path ≠ path ∧ s ∈ rows := by
  obtain ⟨r, hr, rfl⟩ := List.mem_map.mp h
  by_cases hpath : r.path = path
  · rw [if_pos hpath]
    exact Or.inl ⟨r, hr, hpath, rfl⟩
  · rw [if_neg hpath]
    exact Or.inr ⟨hpath, hr⟩

theorem find_path_none (h : rows.find? (·.path = path) = none) :
    path ∉ rows.map StagedChange.path := by
  intro hmem
  obtain ⟨s, hs, hpath⟩ := List.mem_map.mp hmem
  have := List.find?_eq_none.mp h s hs
  simp [hpath] at this

theorem find_path_some {s : StagedChange} (h : rows.find? (·.path = path) = some s) :
    s ∈ rows ∧ s.path = path :=
  ⟨List.mem_of_find?_eq_some h, by simpa using List.find?_some h⟩

/-- Staging never trips over a row that goes on from the committed size. -/
theorem stage_asserts (hrows : ∀ s ∈ rows, s.path = path → s.Continues committed) :
    stage path backingPath numBytes committed rows ≠ .error .assertionError := by
  cases hfind : rows.find? (·.path = path) with
  | none => cases committed <;> simp [stage, hfind]
  | some s =>
    obtain ⟨hs, hpath⟩ := find_path_some hfind
    have hcontinues := hrows s hs hpath
    cases committed with
    | none => simp [stage, hfind, hcontinues.1, hcontinues.2]
    | some size => simp [stage, hfind, hcontinues.1, hcontinues.2.1]

/-- The staged rows of other paths stay. -/
theorem stage_other (h : stage path backingPath numBytes committed rows = .ok rows')
    {s : StagedChange} (hs : s ∈ rows') (hpath : s.path ≠ path) : s ∈ rows := by
  have hset : ∀ n, rows' = setNumBytes path n rows → s ∈ rows := by
    rintro n rfl
    rcases mem_setNumBytes hs with ⟨r, -, hr, rfl⟩ | ⟨-, hmem⟩
    · exact absurd hr hpath
    · exact hmem
  have hnew : ∀ r, r.path = path → rows' = rows ++ [r] → s ∈ rows := by
    rintro r hr rfl
    rcases List.mem_append.mp hs with hs | hs
    · exact hs
    · rw [List.mem_singleton.mp hs] at hpath
      exact absurd hr hpath
  unfold stage at h
  split at h
  · split_ifs at h
    cases h
    exact hset _ rfl
  · cases h
    exact hnew _ (by rfl) rfl
  · split_ifs at h
    cases h
    exact hset _ rfl
  · cases h
    exact hnew _ (by rfl) rfl

theorem stage_nodup (h : stage path backingPath numBytes committed rows = .ok rows')
    (hnodup : (rows.map StagedChange.path).Nodup) : (rows'.map StagedChange.path).Nodup := by
  have hset : ∀ n, ((setNumBytes path n rows).map StagedChange.path).Nodup := by
    intro n
    rwa [map_path_setNumBytes]
  have hnew : ∀ r : StagedChange, r.path = path → rows.find? (·.path = path) = none →
      ((rows ++ [r]).map StagedChange.path).Nodup := by
    intro r hr hfind
    rw [List.map_append, List.map_cons, List.map_nil, hr, ← List.concat_eq_append]
    exact hnodup.concat (find_path_none hfind)
  unfold stage at h
  split at h
  · split_ifs at h
    cases h
    exact hset _
  · cases h
    exact hnew _ (by rfl) (by assumption)
  · split_ifs at h
    cases h
    exact hset _
  · cases h
    exact hnew _ (by rfl) (by assumption)

/-- The staged row of the path goes on from its size exactly when there was one or it is new. -/
theorem stage_continues (h : stage path backingPath numBytes committed rows = .ok rows')
    (hrows : ∀ s ∈ rows, s.path = path → s.Continues committed) :
    (∀ s ∈ rows', s.path = path → s.Continues committed) ↔
      ∀ size, committed = some size → path ∈ rows.map StagedChange.path ∨ size < numBytes := by
  have hset : ∀ n r, r ∈ rows → r.path = path → r.numBytes ≤ n →
      ∀ s ∈ setNumBytes path n rows, s.path = path → s.Continues committed := by
    intro n r hr hrpath hle s hs hpath
    rcases mem_setNumBytes hs with ⟨t, ht, htpath, rfl⟩ | ⟨hne, -⟩
    · have htc := hrows t ht htpath
      have hrc := hrows r hr hrpath
      cases committed with
      | none => exact htc
      | some size => exact ⟨htc.1, htc.2.1, lt_of_lt_of_le hrc.2.2 hle⟩
    · exact absurd hpath hne
  cases hfind : rows.find? (·.path = path) with
  | some r =>
    obtain ⟨hr, hpath⟩ := find_path_some hfind
    have hmem : path ∈ rows.map StagedChange.path := hpath ▸ List.mem_map_of_mem hr
    refine iff_of_true ?_ fun size _ => Or.inl hmem
    cases committed with
    | none =>
      simp only [stage, hfind] at h
      split_ifs at h
      cases h
      exact hset _ r hr hpath (le_max_left _ _)
    | some size =>
      simp only [stage, hfind] at h
      split_ifs at h
      cases h
      exact hset _ r hr hpath (le_max_left _ _)
  | none =>
    have hnot := find_path_none hfind
    cases committed with
    | none =>
      simp only [stage, hfind] at h
      cases h
      refine iff_of_true ?_ (by simp)
      intro s hs hpath
      rcases List.mem_append.mp hs with hs | hs
      · exact hrows s hs hpath
      · rw [List.mem_singleton.mp hs]
        exact ⟨rfl, rfl⟩
    | some size =>
      simp only [stage, hfind] at h
      cases h
      constructor
      · rintro hall _ ⟨⟩
        have hnew := hall _ (List.mem_append_right _ (List.mem_singleton_self _)) rfl
        have hpos : 0 < numBytes - size := hnew.2.2
        right
        omega
      · intro hsize s hs hpath
        rcases List.mem_append.mp hs with hs | hs
        · exact hrows s hs hpath
        · rw [List.mem_singleton.mp hs]
          have hlt := (hsize size rfl).resolve_left hnot
          refine ⟨rfl, rfl, ?_⟩
          dsimp only
          omega

end Stage

section Steps

variable {maxSize : ℤ} {avc avc' : Avc}

/-- A build finds nothing staged, or computes a commit and records it unless it is a dry run. -/
theorem buildGitCommit_cases {commitId : CommitId} {dryRun : Bool} {ops : List VirtualAddOperation}
    (h : avc.buildGitCommit maxSize commitId dryRun = .ok (ops, avc')) :
    ops = [] ∧ avc' = avc ∨ avc.localDb.stagedChanges ≠ [] ∧ ∃ p,
      buildChanges maxSize commitId avc.localDb.stagedChanges = .ok p ∧
      ops = p.requiredGitOperations ++ [databaseOperation] ∧
      if dryRun then avc' = avc else avc.recordCommit commitId p.allCommitChanges = .ok avc' := by
  unfold Avc.buildGitCommit at h
  dsimp only at h
  split_ifs at h
  · obtain ⟨_, herror, _⟩ := Folds.ok_of_bind h
    cases herror
  · obtain ⟨_, herror, _⟩ := Folds.ok_of_bind h
    cases herror
  · obtain ⟨_, herror, _⟩ := Folds.ok_of_bind h
    cases herror
  · cases h
    exact Or.inl ⟨rfl, rfl⟩
  · obtain ⟨p, hp, h⟩ := Folds.ok_of_bind h
    cases h
    exact Or.inr ⟨‹_›, p, hp, rfl, by rw [if_pos ‹dryRun = true›]⟩
  · obtain ⟨p, hp, h⟩ := Folds.ok_of_bind h
    obtain ⟨b, hb, h⟩ := Folds.ok_of_bind h
    cases h
    exact Or.inr ⟨‹_›, p, hp, rfl, by rwa [if_neg ‹¬dryRun = true›]⟩

theorem buildGitCommit_ok {commitId : CommitId} {dryRun : Bool} {ops : List VirtualAddOperation}
    (h : avc.buildGitCommit maxSize commitId dryRun = .ok (ops, avc')) :
    avc' = avc ∨ ∃ p, buildChanges maxSize commitId avc.localDb.stagedChanges = .ok p ∧
      avc.recordCommit commitId p.allCommitChanges = .ok avc' := by
  rcases buildGitCommit_cases h with ⟨-, rfl⟩ | ⟨-, p, hp, -, hlast⟩
  · exact Or.inl rfl
  · split_ifs at hlast
    · exact Or.inl hlast
    · exact Or.inr ⟨p, hp, hlast⟩

theorem add_ok {disk : Disk} {path : Path} {numBytes : Option ℤ} (hchained : avc.Chained)
    (h : avc.add disk path numBytes = .ok avc') : ∃ requested rows,
      avc.requestedBytes disk path numBytes = .ok requested ∧
      stage path (avc.dataToplevel.join path).normpath requested (avc.committedSize path)
        avc.localDb.stagedChanges = .ok rows ∧ avc' = avc.withStaged rows := by
  unfold Avc.add at h
  obtain ⟨requested, hrequested, hrest⟩ := Folds.ok_of_bind h
  rw [hchained.getCommittedFileSize] at hrest
  obtain ⟨committed, hcommitted, hstage⟩ := Folds.ok_of_bind hrest
  obtain ⟨rows, hrows, hlast⟩ := Folds.ok_of_bind hstage
  cases hcommitted
  cases hlast
  exact ⟨requested, rows, hrequested, hrows, rfl⟩

namespace Avc.Staged

theorem init (dataToplevel : Path) : (Avc.init dataToplevel).Staged := by
  refine ⟨.init dataToplevel, List.nodup_nil, ?_⟩
  intro s hs
  exact absurd hs List.not_mem_nil

theorem continues_path (h : avc.Staged) (path : Path) :
    ∀ s ∈ avc.localDb.stagedChanges, s.path = path → s.Continues (avc.committedSize path) := by
  rintro s hs rfl
  exact h.continues s hs

/-- A commit of a consistent staging area leaves it empty. -/
theorem record (h : avc.Staged) (hmax : 0 < maxSize) {commitId : CommitId} {p : Packing}
    (hbuild : buildChanges maxSize commitId avc.localDb.stagedChanges = .ok p)
    (hrecord : avc.recordCommit commitId p.allCommitChanges = .ok avc') : avc'.Staged := by
  have hchained := h.chained.record hmax h.nodup h.continues hbuild hrecord
  obtain ⟨-, rfl⟩ := recordCommit_ok hrecord
  refine ⟨hchained, List.nodup_nil, ?_⟩
  intro s hs
  exact absurd hs List.not_mem_nil

/-- No path shrinks in a commit. -/
theorem record_grows (h : avc.Staged) (hmax : 0 < maxSize) {commitId : CommitId} {p : Packing}
    (hbuild : buildChanges maxSize commitId avc.localDb.stagedChanges = .ok p)
    (hrecord : avc.recordCommit commitId p.allCommitChanges = .ok avc') {path : Path} {size : ℤ}
    (hsize : avc.committedSize path = some size) :
    ∃ size', avc'.committedSize path = some size' ∧ size ≤ size' := by
  by_cases hpath : path ∈ avc.localDb.stagedChanges.map StagedChange.path
  · obtain ⟨s, hs, rfl⟩ := List.mem_map.mp hpath
    have hcontinues := h.continues s hs
    rw [hsize] at hcontinues
    refine ⟨_, h.chained.committedSize_staged hmax h.nodup h.continues hbuild hrecord hs, ?_⟩
    obtain ⟨-, hstart, hpos⟩ := hcontinues
    omega
  · rw [h.chained.committedSize_unstaged h.nodup hbuild hrecord hpath]
    exact ⟨size, hsize, le_refl size⟩

/-- Every committed append is of some bytes. -/
theorem appends_pos (h : avc.Staged) {c : CommitChange} (hc : c ∈ avc.globalDb.commitChanges)
    (happend : c.type = .append) : 0 < c.numBytes := by
  obtain ⟨commit, hcommit, hid⟩ := h.chained.owned c hc
  obtain ⟨newer, older, hsplit⟩ := List.append_of_mem hcommit
  have hmem : c ∈ avc.globalDb.changesOf commit.id c.path := by
    simp [GlobalDb.changesOf, hc, hid]
  obtain ⟨size, hfits⟩ := h.chained.grows commit older c.path ⟨newer, hsplit.symm⟩
    (List.ne_nil_of_mem hmem)
  exact hfits.numBytes_pos (List.mem_map_of_mem hmem) happend

theorem consistent (h : avc.Staged) (hmax : 0 < maxSize) : avc.Consistent maxSize := by
  constructor
  · intro s hs
    exact ⟨_, h.chained.getCommittedFileSize s.path, h.continues s hs⟩
  · intro disk path numBytes hadd
    unfold Avc.add at hadd
    cases hrequested : avc.requestedBytes disk path numBytes with
    | error e =>
      have hne : e ≠ .assertionError := by
        unfold Avc.requestedBytes at hrequested
        split_ifs at hrequested
        · cases hrequested
          decide
        · cases hrequested
          decide
        · cases hstat : disk ((avc.dataToplevel.join path).normpath) with
          | missing =>
            rw [hstat] at hrequested
            cases hrequested
            decide
          | other =>
            rw [hstat] at hrequested
            cases hrequested
            decide
          | regular content =>
            rw [hstat] at hrequested
            cases numBytes with
            | none => cases hrequested
            | some n =>
              dsimp only at hrequested
              split_ifs at hrequested
              cases hrequested
              decide
      rw [hrequested] at hadd
      exact hne (Except.error.inj hadd)
    | ok requested =>
      rw [hrequested, h.chained.getCommittedFileSize] at hadd
      have hstage : stage path (avc.dataToplevel.join path).normpath requested
          (avc.committedSize path) avc.localDb.stagedChanges ≠ .error .assertionError :=
        stage_asserts (h.continues_path path)
      cases hrows : stage path (avc.dataToplevel.join path).normpath requested
          (avc.committedSize path) avc.localDb.stagedChanges with
      | error e =>
        have herror : e = .assertionError := by
          simp only [bind, Except.bind, hrows] at hadd
          exact Except.error.inj hadd
        exact hstage (herror ▸ hrows)
      | ok rows =>
        simp only [bind, Except.bind, hrows] at hadd
        cases hadd
  · intro c hc happend
    exact h.appends_pos hc happend
  · intro commitId dryRun ops avc' path size hbuild hsize
    rw [h.chained.getCommittedFileSize] at hsize
    rcases buildGitCommit_ok hbuild with rfl | ⟨p, hp, hrecord⟩
    · exact ⟨size, (h.chained.getCommittedFileSize path).trans hsize, le_refl size⟩
    · obtain ⟨size', hsize', hle⟩ := h.record_grows hmax hp hrecord (Except.ok.inj hsize)
      refine ⟨size', ?_, hle⟩
      rw [(h.record hmax hp hrecord).chained.getCommittedFileSize, hsize']

/-- The staged rows after an add go on from their sizes exactly when the add meets the condition. -/
theorem add_iff (h : avc.Staged) {disk : Disk} {path : Path} {numBytes : Option ℤ}
    (hadd : avc.add disk path numBytes = .ok avc') :
    (∀ s ∈ avc'.localDb.stagedChanges, s.Continues (avc'.committedSize s.path)) ↔
      (SourceAction.add disk path numBytes).Meets avc := by
  obtain ⟨requested, rows, hrequested, hrows, rfl⟩ := add_ok h.chained hadd
  have hiff := stage_continues hrows (h.continues_path path)
  have hmeets : (SourceAction.add disk path numBytes).Meets avc ↔
      ∀ size, avc.committedSize path = some size →
        path ∈ avc.localDb.stagedChanges.map StagedChange.path ∨ size < requested := by
    simp only [SourceAction.Meets, hrequested, h.chained.getCommittedFileSize]
    cases avc.committedSize path <;> simp
  rw [hmeets, ← hiff]
  constructor
  · rintro hall s hs rfl
    exact hall s hs
  · intro hall s hs
    by_cases hpath : s.path = path
    · have := hall s hs hpath
      rwa [← hpath] at this
    · exact h.continues s (stage_other hrows hs hpath)

/-- The staged rows after an abort go on from their sizes exactly when no staged path was changed. -/
theorem abort_iff (h : avc.Staged) (habort : avc.abortLastCommit = .ok avc') :
    (∀ s ∈ avc'.localDb.stagedChanges, s.Continues (avc'.committedSize s.path)) ↔
      SourceAction.abortLastCommit.Meets avc := by
  rcases h.chained.abort_ok habort with ⟨hhead, rfl⟩ | ⟨id, parent, older, hhead, hcommits, -, -, heq⟩
  · refine iff_of_true h.continues ?_
    simp [SourceAction.Meets, hhead]
  · have hstaged : avc'.localDb.stagedChanges = avc.localDb.stagedChanges := by rw [heq]
    have hmeets : SourceAction.abortLastCommit.Meets avc ↔
        ∀ s ∈ avc.localDb.stagedChanges, avc.globalDb.changesOf id s.path = [] := by
      simp [SourceAction.Meets, hhead]
    rw [hstaged, hmeets]
    apply forall₂_congr
    intro s hs
    have hnow := h.continues s hs
    rw [h.chained.committedSize_abort hcommits habort]
    constructor
    · intro hbefore
      by_contra hne
      obtain ⟨size, hfits⟩ := h.chained.grows ⟨id, parent⟩ older s.path (hcommits ▸ List.suffix_refl _) hne
      have hsize : avc.committedSize s.path = some size := by
        rw [Avc.committedSize, hcommits]
        exact h.chained.sizeAlong_changed hfits
      rw [hsize] at hnow
      cases hold : avc.globalDb.sizeAlong s.path older with
      | none =>
        rw [hold] at hbefore
        exact absurd (hbefore.1.symm.trans hnow.1) (by decide)
      | some size' =>
        rw [hold] at hbefore hfits
        have hlt := hfits.lt
        have hsame := hbefore.2.1.symm.trans hnow.2.1
        omega
    · intro hnone
      rwa [Avc.committedSize, hcommits, GlobalDb.sizeAlong_unchanged hnone] at hnow

theorem add_nodup (h : avc.Staged) {disk : Disk} {path : Path} {numBytes : Option ℤ}
    (hadd : avc.add disk path numBytes = .ok avc') :
    avc'.Chained ∧ (avc'.localDb.stagedChanges.map StagedChange.path).Nodup := by
  obtain ⟨requested, rows, -, hrows, rfl⟩ := add_ok h.chained hadd
  exact ⟨h.chained.withStaged rows, stage_nodup hrows h.nodup⟩

theorem abort_nodup (h : avc.Staged) (habort : avc.abortLastCommit = .ok avc') :
    avc'.Chained ∧ (avc'.localDb.stagedChanges.map StagedChange.path).Nodup := by
  refine ⟨h.chained.abort habort, ?_⟩
  rcases h.chained.abort_ok habort with ⟨-, rfl⟩ | ⟨id, parent, older, -, -, -, -, rfl⟩ <;>
    exact h.nodup

end Avc.Staged

theorem ok_of_toOption {α : Type} {r : Except AvcError α} {a : α} (h : r.toOption = some a) :
    r = .ok a := by
  cases r with
  | error e => cases h
  | ok b => exact congrArg Except.ok (Option.some.inj h)

/-- Every step either keeps the invariant, or is one of the two that the condition is about. -/
theorem SourceAction.step_staged (hmax : 0 < maxSize) (h : avc.Staged) {a : SourceAction}
    (hstep : a.step maxSize avc = some avc') :
    (avc'.Chained ∧ (avc'.localDb.stagedChanges.map StagedChange.path).Nodup) ∧
      ((∀ s ∈ avc'.localDb.stagedChanges, s.Continues (avc'.committedSize s.path)) ↔ a.Meets avc) := by
  cases a with
  | add disk path numBytes =>
    have hadd := ok_of_toOption hstep
    exact ⟨h.add_nodup hadd, h.add_iff hadd⟩
  | resetStaged =>
    cases hstep
    refine ⟨⟨h.chained.withStaged [], List.nodup_nil⟩, iff_of_true ?_ trivial⟩
    intro s hs
    exact absurd hs List.not_mem_nil
  | buildGitCommit commitId dryRun =>
    obtain ⟨⟨ops, avc₁⟩, hbuild, hsnd⟩ := Option.map_eq_some_iff.mp hstep
    cases hsnd
    have hkept : avc₁.Staged := by
      rcases buildGitCommit_ok (ok_of_toOption hbuild) with rfl | ⟨p, hp, hrecord⟩
      · exact h
      · exact h.record hmax hp hrecord
    exact ⟨⟨hkept.chained, hkept.nodup⟩, iff_of_true hkept.continues trivial⟩
  | abortLastCommit =>
    have habort := ok_of_toOption hstep
    exact ⟨h.abort_nodup habort, h.abort_iff habort⟩

/-- From a fresh archive, the states of a run are consistent exactly when every step has
something new to add and undoes no commit below a staged row. -/
theorem Avc.consistent_iff_meets (hmax : 0 < maxSize) (dataToplevel : Path)
    {actions : List SourceAction} {final : Avc}
    (hrun : Runs.perform (SourceAction.step maxSize) (Avc.init dataToplevel) actions = some final) :
    (∀ before avc, before <+: actions →
      Runs.perform (SourceAction.step maxSize) (Avc.init dataToplevel) before = some avc →
      avc.Consistent maxSize) ↔
    ∀ before a avc, before ++ [a] <+: actions →
      Runs.perform (SourceAction.step maxSize) (Avc.init dataToplevel) before = some avc →
      a.Meets avc := by
  apply Runs.good_iff_meets (I := Avc.Staged) (C := fun avc a => a.Meets avc) _ (.init dataToplevel)
    _ _ hrun
  · intro avc h
    exact h.consistent hmax
  · intro avc a avc' h hmeets hstep
    obtain ⟨⟨hchained, hnodup⟩, hiff⟩ := SourceAction.step_staged hmax h hstep
    exact ⟨hchained, hnodup, hiff.mpr hmeets⟩
  · intro avc a avc' h hstep hgood
    obtain ⟨⟨hchained, -⟩, hiff⟩ := SourceAction.step_staged hmax h hstep
    rw [← hiff]
    intro s hs
    obtain ⟨size, hsize, hcontinues⟩ := hgood.staged s hs
    rw [hchained.getCommittedFileSize] at hsize
    cases hsize
    exact hcontinues

/-- One file of some bytes in the data directory. -/
def oneFile (path : Path) (content : Bytes) : Disk :=
  fun p => if p = path then .regular content else .missing

/-- A create, a commit, an append larger than the limit, a commit and its abort. -/
def growingFile : List SourceAction :=
  let disk := oneFile ⟨true, ["data", "a.bin"]⟩ [1, 2, 3, 4, 5, 6, 7]
  [.add disk ⟨false, ["a.bin"]⟩ (some 2), .buildGitCommit "c1" false,
    .add disk ⟨false, ["a.bin"]⟩ none, .add disk ⟨false, ["a.bin"]⟩ (some 3),
    .buildGitCommit "c2" false, .abortLastCommit, .resetStaged]

theorem Avc.consistent_growingFile :
    ∃ avc, Runs.perform (SourceAction.step 3) (Avc.init ⟨true, ["data"]⟩) growingFile = some avc ∧
      avc.Consistent 3 := by
  have hrun : (Runs.performIf (SourceAction.step 3) (fun avc a => a.Meets avc)
      (Avc.init ⟨true, ["data"]⟩) growingFile).isSome := by decide +kernel
  obtain ⟨final, hfinal⟩ := Option.isSome_iff_exists.mp hrun
  obtain ⟨hperform, hmeets⟩ := Runs.meets_of_performIf hfinal
  have hconsistent := (Avc.consistent_iff_meets (by decide) _ hperform).mpr hmeets
  exact ⟨final, hperform, hconsistent growingFile final List.prefix_rfl hperform⟩

/-- A row that does not go on from the committed size of its path. -/
def Avc.misplaced (avc : Avc) (row : StagedChange) : Bool :=
  match avc.getCommittedFileSize row.path with
  | .ok size => !decide (row.Continues size)
  | .error _ => true

theorem Avc.not_consistent_of_misplaced {avc : Avc}
    (h : avc.localDb.stagedChanges.any avc.misplaced) : ¬avc.Consistent maxSize := by
  intro hconsistent
  obtain ⟨row, hrow, hmisplaced⟩ := List.any_eq_true.mp h
  obtain ⟨size, hsize, hcontinues⟩ := hconsistent.staged row hrow
  simp [misplaced, hsize, hcontinues] at hmisplaced

/-- Adding a file again when all of it is committed stages an append of no bytes. -/
theorem Avc.not_consistent_nothing_new : ∃ actions final,
    Runs.perform (SourceAction.step deployedMaxSize) (Avc.init ⟨true, ["data"]⟩) actions =
      some final ∧ ¬final.Consistent deployedMaxSize := by
  let disk := oneFile ⟨true, ["data", "a.bin"]⟩ [1, 2, 3]
  let actions : List SourceAction := [.add disk ⟨false, ["a.bin"]⟩ none, .buildGitCommit "c1" false,
    .add disk ⟨false, ["a.bin"]⟩ none]
  have hrun : (Runs.perform (SourceAction.step deployedMaxSize) (Avc.init ⟨true, ["data"]⟩)
      actions).any (fun final => final.localDb.stagedChanges.any final.misplaced) := by
    decide +kernel
  obtain ⟨final, hfinal, hmisplaced⟩ := (Option.any_eq_true _ _).mp hrun
  exact ⟨actions, final, hfinal, Avc.not_consistent_of_misplaced hmisplaced⟩

end Steps

end NpmFollower.DatabaseExporting
