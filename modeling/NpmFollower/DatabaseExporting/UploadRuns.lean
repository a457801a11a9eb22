import NpmFollower.DatabaseExporting.AvcHf

/-! # Complete uploads

An operation is skipped when an equal one was completed. The paths of blobs contain
the commit, so this is right for them; the operation for the database is the same in
every commit, and its content is not.
-/

namespace NpmFollower.DatabaseExporting

/-! ## Chunks and growing files -/

theorem flatten_chunked {α : Type} (l : List α) : (chunked l).flatten = l := by
  fun_induction chunked l <;> simp_all

section Grow

variable {disk : Disk} {path : Path} {bytes : Bytes}

theorem Disk.append_regular (path : Path) (bytes : Bytes) {p : Path} {content : Bytes}
    (h : disk p = .regular content) :
    ∃ more, disk.append path bytes p = .regular (content ++ more) := by
  unfold Disk.append
  by_cases hp : p = path
  · rw [hp] at h ⊢
    exact ⟨bytes, by simp [h]⟩
  · refine ⟨[], ?_⟩
    rw [List.append_nil]
    cases disk path <;> simp [Function.update_of_ne hp, h]

theorem ReadSource.Readable.append {s : ReadSource} (h : s.Readable disk) :
    s.Readable (disk.append path bytes) ∧ s.slice (disk.append path bytes) = s.slice disk := by
  obtain ⟨content, hcontent, hle⟩ := h.file
  obtain ⟨more, hmore⟩ := Disk.append_regular path bytes hcontent
  have hoffset := h.offset_nonneg
  have hbytes := h.numBytes_nonneg
  constructor
  · refine ⟨hoffset, hbytes, content ++ more, hmore, ?_⟩
    rw [List.length_append]
    omega
  · rw [ReadSource.slice, ReadSource.slice, hcontent, hmore]
    dsimp only
    rw [List.drop_append_of_le_length (by omega), List.take_append_of_le_length]
    rw [List.length_drop]
    omega

theorem concatenation_append {sources : List ReadSource} (h : ∀ s ∈ sources, s.Readable disk) :
    concatenation (disk.append path bytes) sources = concatenation disk sources := by
  rw [concatenation, concatenation]
  congr 1
  apply List.map_congr_left
  intro s hs
  exact (h s hs).append.2

end Grow

/-! ## A commit to the remote -/

section Commit

variable {remote : Remote} {disk : Disk} {db : GlobalDb} {chunk : List VirtualAddOperation}

theorem Remote.commit_other {path : RepoPath} (h : ∀ op ∈ chunk, op.repoPath ≠ path) :
    remote.commit disk db chunk path = remote path := by
  induction chunk using List.reverseRecOn with
  | nil => rfl
  | append_singleton chunk op ih =>
    rw [Remote.commit, List.foldl_append]
    have hne : path ≠ op.repoPath := (h op (by simp)).symm
    simp only [List.foldl_cons, List.foldl_nil, Function.update_of_ne hne]
    exact ih fun op' hop' => h op' (List.mem_append_left _ hop')

theorem Remote.commit_mem {op : VirtualAddOperation} (hop : op ∈ chunk)
    (hdistinct : ∀ op' ∈ chunk, op'.repoPath = op.repoPath → op' = op) :
    remote.commit disk db chunk op.repoPath = some (op.file disk db) := by
  induction chunk using List.reverseRecOn with
  | nil => cases hop
  | append_singleton chunk last ih =>
    rw [Remote.commit, List.foldl_append]
    by_cases hpath : last.repoPath = op.repoPath
    · rw [hdistinct last (by simp) hpath]
      simp
    · simp only [List.foldl_cons, List.foldl_nil, Function.update_of_ne (Ne.symm hpath)]
      apply ih
      · rcases List.mem_append.mp hop with hmem | hlast
        · exact hmem
        · rw [List.mem_singleton.mp hlast] at hpath
          exact absurd rfl hpath
      · intro op' hop'
        exact hdistinct op' (List.mem_append_left _ hop')

end Commit

theorem globalDb_add {avc avc' : Avc} {disk : Disk} {path : Path} {numBytes : Option ℤ}
    (h : avc.add disk path numBytes = .ok avc') : avc'.globalDb = avc.globalDb := by
  unfold Avc.add at h
  obtain ⟨requested, -, h⟩ := Folds.ok_of_bind h
  obtain ⟨committed, -, h⟩ := Folds.ok_of_bind h
  obtain ⟨rows, -, h⟩ := Folds.ok_of_bind h
  cases h
  rfl

/-! ## The invariant -/

namespace Archive

/-- The operations that there have been. -/
def known (s : Archive) : List VirtualAddOperation :=
  s.uploaded ++ s.gitOperations.getD [] ++ s.lastCommit

/-- What a run has behind it and before it. -/
def Accounts (s : Archive) : Uploader → Prop
  | .idle => True
  | .running filteredOut chunks => ∃ ops, s.gitOperations = some ops ∧
      (∀ op ∈ chunks.flatten, op ∈ ops) ∧
      (∀ op ∈ ops, op ∈ s.completedOps ∨ op ∈ chunks.flatten) ∧
      (databaseOperation ∈ filteredOut ∨ databaseOperation ∈ chunks.flatten ∨ s.outdated = false)
  | .committed filteredOut chunk chunks => ∃ ops, s.gitOperations = some ops ∧
      (∀ op ∈ chunks.flatten, op ∈ ops) ∧ (∀ op ∈ chunk, op ∈ s.uploaded) ∧
      (∀ op ∈ ops, op ∈ s.completedOps ∨ op ∈ chunk ∨ op ∈ chunks.flatten) ∧
      (databaseOperation ∈ filteredOut ∨ databaseOperation ∈ chunks.flatten ∨ s.outdated = false)
  | .ended => (∀ op ∈ s.lastCommit, op ∈ s.uploaded) ∧ databaseOperation ∈ s.uploaded ∧
      s.outdated = false

structure Sound (s : Archive) : Prop where
  contents : ∀ path sources, .concatenating path sources ∈ s.uploaded →
    (∀ source ∈ sources, source.Readable s.disk) ∧
      s.remote path = some (.bytes (concatenation s.disk sources))
  database : ∀ f, s.remote .globalStateDb = some f → ∃ db, f = .database db ∧
    if s.outdated then db.commits.length < s.avc.globalDb.commits.length
      else db = s.avc.globalDb
  databaseUploaded : databaseOperation ∈ s.uploaded → (s.remote .globalStateDb).isSome
  origin : ∀ path, (s.remote path).isSome → ∃ op ∈ s.uploaded, op.repoPath = path
  completed : ∀ op ∈ s.completedOps, op ∈ s.uploaded
  known : ∀ op ∈ s.known, op = databaseOperation ∨
    ∃ id ∈ s.commitIds, ∃ i sources, op = blobOperation id i sources
  distinct : ∀ op ∈ s.known, ∀ op' ∈ s.known, op.repoPath = op'.repoPath → op = op'
  operations : ∀ ops, s.gitOperations = some ops → databaseOperation ∈ ops
  run : s.Accounts s.uploader

/-- The run skipped the database, and a commit was recorded since its upload. -/
def LeavesDatabase (s : Archive) (a : ArchiveAction) : Prop :=
  a = .endRun ∧ s.outdated ∧ ∃ filteredOut, s.uploader = .running filteredOut [] ∧
    databaseOperation ∈ filteredOut

/-- The operations file is that of a dry run after the last commit, of which a part was never
uploaded. -/
def LeavesBlobs (s : Archive) (a : ArchiveAction) : Prop :=
  a = .endRun ∧ s.gitOperations ≠ some s.lastCommit ∧
    (∃ filteredOut, s.uploader = .running filteredOut []) ∧ ∃ op ∈ s.lastCommit, op ∉ s.uploaded

def Leaves (s : Archive) (a : ArchiveAction) : Prop := s.LeavesDatabase a ∨ s.LeavesBlobs a

/-- Whenever an upload run has ended normally, the remote is complete. -/
def UploadsComplete (s : Archive) : Prop := s.uploader = .ended → s.Complete

variable {maxSize : ℤ} {s s' : Archive} {op op' : VirtualAddOperation}

theorem sound_initial (avc : Avc) (disk : Disk) : (initial avc disk).Sound where
  contents _ _ h := by cases h
  database _ h := by cases h
  databaseUploaded h := by cases h
  origin _ h := by cases h
  completed _ h := by cases h
  known _ h := by cases h
  distinct _ h := by cases h
  operations _ h := by cases h
  run := trivial

namespace Sound

theorem mem_known_of_uploaded (h : op ∈ s.uploaded) : op ∈ s.known := by
  rw [Archive.known, List.append_assoc]
  exact List.mem_append_left _ h

theorem mem_known_of_operations {ops : List VirtualAddOperation} (h : s.gitOperations = some ops)
    (hop : op ∈ ops) : op ∈ s.known := by
  rw [Archive.known, h]
  exact List.mem_append_left _ (List.mem_append_right _ hop)

theorem mem_known_of_lastCommit (h : op ∈ s.lastCommit) : op ∈ s.known :=
  List.mem_append_right _ h

/-- An operation on the remote's path is the one that is there. -/
theorem uploaded_of_remote (h : s.Sound) (hop : op ∈ s.known)
    (hremote : (s.remote op.repoPath).isSome) : op ∈ s.uploaded := by
  obtain ⟨op', hop', hpath⟩ := h.origin _ hremote
  rwa [h.distinct op hop op' (mem_known_of_uploaded hop') hpath.symm]

theorem uploadsComplete (h : s.Sound) : s.UploadsComplete := by
  intro hended
  have hrun := h.run
  rw [hended] at hrun
  obtain ⟨hblobs, hdatabase, houtdated⟩ := hrun
  constructor
  · intro path sources hop
    exact (h.contents path sources (hblobs _ hop)).2
  · obtain ⟨f, hf⟩ := Option.isSome_iff_exists.mp (h.databaseUploaded hdatabase)
    obtain ⟨db, rfl, hdb⟩ := h.database f hf
    rw [houtdated] at hdb
    rw [hf, hdb]

/-- A step that only changes what the run is about. -/
theorem withUploader (h : s.Sound) {uploader : Uploader} (hrun : s.Accounts uploader) :
    ({ s with uploader } : Archive).Sound where
  contents := h.contents
  database := h.database
  databaseUploaded := h.databaseUploaded
  origin := h.origin
  completed := h.completed
  known := h.known
  distinct := h.distinct
  operations := h.operations
  run := by cases uploader <;> exact hrun

/-- Staging changes nothing that was committed. -/
theorem withAvc (h : s.Sound) {avc : Avc} (hdb : avc.globalDb = s.avc.globalDb) :
    ({ s with avc } : Archive).Sound where
  contents := h.contents
  database := by
    intro f hf
    obtain ⟨db, heq, hdb'⟩ := h.database f hf
    refine ⟨db, heq, ?_⟩
    rwa [hdb]
  databaseUploaded := h.databaseUploaded
  origin := h.origin
  completed := h.completed
  known := h.known
  distinct := h.distinct
  operations := h.operations
  run := by
    have hrun := h.run
    cases hup : s.uploader <;> rw [hup] at hrun <;> exact hrun

theorem write (h : s.Sound) (path : Path) (bytes : Bytes) :
    ({ s with disk := s.disk.append path bytes } : Archive).Sound where
  contents := by
    intro p sources hop
    obtain ⟨hreadable, hremote⟩ := h.contents p sources hop
    constructor
    · intro source hsource
      exact (hreadable source hsource).append.1
    · rw [hremote, concatenation_append hreadable]
  database := h.database
  databaseUploaded := h.databaseUploaded
  origin := h.origin
  completed := h.completed
  known := h.known
  distinct := h.distinct
  operations := h.operations
  run := by
    have hrun := h.run
    cases hup : s.uploader <;> rw [hup] at hrun <;> exact hrun

/-- The paths of a new commit have nothing to do with those of the old ones. -/
theorem eq_of_new (h : s.Sound) {commitId : CommitId} {ops : List VirtualAddOperation}
    (hnew : commitId ∉ s.commitIds) (hops : OperationsOf commitId ops) (hold : op ∈ s.known)
    (hnow : op' ∈ ops) (hpath : op.repoPath = op'.repoPath) : op = op' := by
  rcases h.known op hold with rfl | ⟨id, hid, i, sources, rfl⟩ <;>
    rcases hops.form hnow with rfl | ⟨j, sources', rfl⟩
  · rfl
  · cases hpath
  · cases hpath
  · cases hpath
    exact absurd hid hnew

/-- A build without operations leaves everything, and the others have an id of their own. -/
theorem build (h : s.Sound) {commitId : CommitId} {dryRun : Bool} (hnew : commitId ∉ s.commitIds) :
    (s.build maxSize commitId dryRun).Sound := by
  rw [Archive.build]
  split
  · exact h
  · exact h
  · next ops avc hempty hbuild =>
    rcases buildGitCommit_operations hbuild with ⟨rfl, rfl⟩ | ⟨hops, havc⟩
    · exact absurd rfl hempty
    have hknown : ∀ op ∈ s.uploaded ++ ops ++ (if dryRun then s.lastCommit else ops),
        op ∈ s.known ∨ op ∈ ops := by
      intro op hop
      simp only [List.mem_append] at hop
      rcases hop with (huploaded | hnow) | hlast
      · exact Or.inl (mem_known_of_uploaded huploaded)
      · exact Or.inr hnow
      · split_ifs at hlast
        · exact Or.inl (mem_known_of_lastCommit hlast)
        · exact Or.inr hlast
    exact {
      contents := h.contents
      database := by
        intro f hf
        obtain ⟨db, rfl, hdb⟩ := h.database f hf
        refine ⟨db, rfl, ?_⟩
        cases dryRun with
        | true =>
          rw [if_pos rfl] at havc
          simpa [havc] using hdb
        | false =>
          rw [if_neg (by decide)] at havc
          rw [if_pos (by simp), havc]
          split_ifs at hdb
          · omega
          · rw [hdb]
            omega
      databaseUploaded := h.databaseUploaded
      origin := h.origin
      completed := h.completed
      known := by
        intro op hop
        rcases hknown op hop with hold | hnow
        · rcases h.known op hold with hdatabase | ⟨id, hid, i, sources, heq⟩
          · exact Or.inl hdatabase
          · exact Or.inr ⟨id, List.mem_cons_of_mem _ hid, i, sources, heq⟩
        · rcases hops.form hnow with hdatabase | ⟨i, sources, heq⟩
          · exact Or.inl hdatabase
          · exact Or.inr ⟨commitId, List.mem_cons_self, i, sources, heq⟩
      distinct := by
        intro op hop op' hop' hpath
        rcases hknown op hop with hold | hnow <;> rcases hknown op' hop' with hold' | hnow'
        · exact h.distinct op hold op' hold' hpath
        · exact h.eq_of_new hnew hops hold hnow' hpath
        · exact (h.eq_of_new hnew hops hold' hnow hpath.symm).symm
        · exact hops.distinct hnow hnow' hpath
      operations := by
        intro ops' hops'
        cases hops'
        exact hops.database
      run := trivial }

/-- The operations that are left are the chunks of the run. -/
theorem loadOperations (h : s.Sound) {ops : List VirtualAddOperation}
    (hops : s.gitOperations = some ops) : (s.loadOperations ops).Sound := by
  rw [Archive.loadOperations]
  split_ifs
  · apply h.withUploader
    refine ⟨ops, hops, ?_, ?_, ?_⟩
    · intro op hop
      rw [flatten_chunked] at hop
      exact List.mem_of_mem_filter hop
    · intro op hop
      rw [flatten_chunked]
      by_cases hcompleted : op ∈ s.completedOps
      · exact Or.inl hcompleted
      · exact Or.inr (List.mem_filter.mpr ⟨hop, by simpa using hcompleted⟩)
    · have hdatabase := h.operations ops hops
      rw [flatten_chunked]
      by_cases hcompleted : databaseOperation ∈ s.completedOps
      · exact Or.inl (List.mem_filter.mpr ⟨hdatabase, by simpa using hcompleted⟩)
      · exact Or.inr (Or.inl (List.mem_filter.mpr ⟨hdatabase, by simpa using hcompleted⟩))
  · exact h.withUploader trivial

theorem runChunk (h : s.Sound) {filteredOut chunk : List VirtualAddOperation}
    {chunks : List (List VirtualAddOperation)}
    (hrunning : s.uploader = .running filteredOut (chunk :: chunks)) :
    (s.runChunk filteredOut chunk chunks).Sound := by
  have hrun := h.run
  rw [hrunning] at hrun
  obtain ⟨ops, hops, hchunks, hleft, hdatabase⟩ := hrun
  simp only [List.flatten_cons, List.mem_append] at hchunks hleft hdatabase
  have hchunk : ∀ op ∈ chunk, op ∈ s.known := fun op hop =>
    mem_known_of_operations hops (hchunks op (Or.inl hop))
  have hcommitted : ∀ op ∈ chunk, (s.remote.commit s.disk s.avc.globalDb chunk) op.repoPath =
      some (op.file s.disk s.avc.globalDb) := by
    intro op hop
    apply Remote.commit_mem hop
    intro op' hop'
    exact h.distinct op' (hchunk op' hop') op (hchunk op hop)
  have hother : ∀ op ∈ s.known, op ∉ chunk →
      (s.remote.commit s.disk s.avc.globalDb chunk) op.repoPath = s.remote op.repoPath := by
    intro op hop hnot
    apply Remote.commit_other
    intro op' hop' hpath
    rw [h.distinct op' (hchunk op' hop') op hop hpath] at hop'
    exact hnot hop'
  rw [Archive.runChunk]
  split_ifs with huploadable
  · rw [List.all_eq_true] at huploadable
    have hknownDatabase : databaseOperation ∈ s.known :=
      mem_known_of_operations hops (h.operations ops hops)
    have hknown : ∀ op ∈ s.uploaded ++ chunk ++ s.gitOperations.getD [] ++ s.lastCommit,
        op ∈ s.known := by
      intro op hop
      simp only [List.mem_append] at hop
      rcases hop with ((huploaded | hnow) | hoperation) | hlast
      · exact mem_known_of_uploaded huploaded
      · exact hchunk op hnow
      · rw [hops] at hoperation
        exact mem_known_of_operations hops hoperation
      · exact mem_known_of_lastCommit hlast
    exact {
      contents := by
        intro path sources hop
        by_cases hmem : VirtualAddOperation.concatenating path sources ∈ chunk
        · constructor
          · intro source hsource
            have hfits := huploadable _ hmem
            rw [VirtualAddOperation.uploadable, Bool.and_eq_true, List.all_eq_true] at hfits
            exact ReadSource.fits_iff.mp (hfits.2 source hsource)
          · exact hcommitted _ hmem
        · have hold := (List.mem_append.mp hop).resolve_right hmem
          obtain ⟨hreadable, hremote⟩ := h.contents path sources hold
          exact ⟨hreadable, (hother _ (mem_known_of_uploaded hold) hmem).trans hremote⟩
      database := by
        intro f hf
        by_cases hmem : databaseOperation ∈ chunk
        · have hnow := hcommitted _ hmem
          change (s.remote.commit s.disk s.avc.globalDb chunk) .globalStateDb = some f at hf
          change (s.remote.commit s.disk s.avc.globalDb chunk) .globalStateDb = _ at hnow
          rw [hnow] at hf
          cases hf
          exact ⟨s.avc.globalDb, rfl, by simp [hmem]⟩
        · have hsame := hother _ hknownDatabase hmem
          change (s.remote.commit s.disk s.avc.globalDb chunk) .globalStateDb = some f at hf
          change (s.remote.commit s.disk s.avc.globalDb chunk) .globalStateDb = _ at hsame
          rw [hsame] at hf
          obtain ⟨db, rfl, hdb⟩ := h.database f hf
          exact ⟨db, rfl, by simpa [hmem] using hdb⟩
      databaseUploaded := by
        intro hop
        by_cases hmem : databaseOperation ∈ chunk
        · exact Option.isSome_of_eq_some (hcommitted _ hmem)
        · have hold := h.databaseUploaded ((List.mem_append.mp hop).resolve_right hmem)
          have hsame := hother _ hknownDatabase hmem
          change ((s.remote.commit s.disk s.avc.globalDb chunk) .globalStateDb).isSome
          change (s.remote.commit s.disk s.avc.globalDb chunk) .globalStateDb = _ at hsame
          rw [hsame]
          exact hold
      origin := by
        intro path hsome
        by_cases hpath : ∃ op ∈ chunk, op.repoPath = path
        · obtain ⟨op, hop, heq⟩ := hpath
          exact ⟨op, List.mem_append_right _ hop, heq⟩
        · push Not at hpath
          change ((s.remote.commit s.disk s.avc.globalDb chunk) path).isSome at hsome
          rw [Remote.commit_other hpath] at hsome
          obtain ⟨op, hop, heq⟩ := h.origin path hsome
          exact ⟨op, List.mem_append_left _ hop, heq⟩
      completed := fun op hop => List.mem_append_left _ (h.completed op hop)
      known := fun op hop => h.known op (hknown op hop)
      distinct := fun op hop op' hop' => h.distinct op (hknown op hop) op' (hknown op' hop')
      operations := h.operations
      run := by
        refine ⟨ops, hops, fun op hop => hchunks op (Or.inr hop),
          fun op hop => List.mem_append_right _ hop, hleft, ?_⟩
        rcases hdatabase with hskipped | (hnow | hlater) | hcurrent
        · exact Or.inl hskipped
        · exact Or.inr (Or.inr (by simp [hnow]))
        · exact Or.inr (Or.inl hlater)
        · exact Or.inr (Or.inr (by simp [hcurrent])) }
  · exact h.withUploader trivial

theorem recordChunk (h : s.Sound) {filteredOut chunk : List VirtualAddOperation}
    {chunks : List (List VirtualAddOperation)}
    (hcommitted : s.uploader = .committed filteredOut chunk chunks) :
    ({ s with
      completedOps := s.completedOps ++ chunk
      uploader := .running filteredOut chunks } : Archive).Sound := by
  have hrun := h.run
  rw [hcommitted] at hrun
  obtain ⟨ops, hops, hchunks, huploaded, hleft, hdatabase⟩ := hrun
  exact {
    contents := h.contents
    database := h.database
    databaseUploaded := h.databaseUploaded
    origin := h.origin
    completed := by
      intro op hop
      rcases List.mem_append.mp hop with hold | hnew
      · exact h.completed op hold
      · exact huploaded op hnew
    known := h.known
    distinct := h.distinct
    operations := h.operations
    run := by
      refine ⟨ops, hops, hchunks, ?_, hdatabase⟩
      intro op hop
      rcases hleft op hop with hold | hnew | hlater
      · exact Or.inl (List.mem_append_left _ hold)
      · exact Or.inl (List.mem_append_right _ hnew)
      · exact Or.inr hlater }

/-- A run that leaves nothing behind ends with everything uploaded. -/
theorem endRun (h : s.Sound) {filteredOut : List VirtualAddOperation}
    (hrunning : s.uploader = .running filteredOut []) (hkeeps : ¬ s.Leaves .endRun) :
    ({ s with uploader := .ended } : Archive).Sound := by
  have hrun := h.run
  rw [hrunning] at hrun
  obtain ⟨ops, hops, -, hleft, hdatabase⟩ := hrun
  have huploaded : ∀ op ∈ ops, op ∈ s.uploaded := by
    intro op hop
    rcases hleft op hop with hcompleted | hlater
    · exact h.completed op hcompleted
    · simp at hlater
  apply h.withUploader
  refine ⟨?_, huploaded _ (h.operations ops hops), ?_⟩
  · intro op hop
    by_contra hnot
    by_cases hsame : s.gitOperations = some s.lastCommit
    · rw [hops] at hsame
      cases hsame
      exact hnot (huploaded op hop)
    · exact hkeeps (Or.inr ⟨rfl, hsame, ⟨filteredOut, hrunning⟩, op, hop, hnot⟩)
  · by_contra houtdated
    rcases hdatabase with hskipped | hlater | hcurrent
    · exact hkeeps (Or.inl ⟨rfl, by simpa using houtdated, filteredOut, hrunning, hskipped⟩)
    · simp at hlater
    · exact houtdated hcurrent

theorem step (h : s.Sound) {a : ArchiveAction} (hkeeps : ¬ s.Leaves a)
    (hstep : s.step maxSize a = some s') : s'.Sound := by
  cases a with
  | write path bytes =>
    cases hstep
    exact h.write path bytes
  | add path numBytes =>
    rw [Archive.step] at hstep
    obtain ⟨avc, havc, rfl⟩ := Option.map_eq_some_iff.mp hstep
    exact h.withAvc (globalDb_add (ok_of_toOption havc))
  | resetStaged =>
    cases hstep
    exact h.withAvc rfl
  | buildGitCommit commitId dryRun =>
    rw [Archive.step] at hstep
    split_ifs at hstep with hquiet
    cases hstep
    exact h.build hquiet.2
  | loadOperations =>
    rw [Archive.step] at hstep
    split_ifs at hstep
    obtain ⟨ops, hops, rfl⟩ := Option.map_eq_some_iff.mp hstep
    exact h.loadOperations hops
  | runChunk =>
    rw [Archive.step] at hstep
    split at hstep
    · next filteredOut chunk chunks hrunning =>
      cases hstep
      exact h.runChunk hrunning
    · cases hstep
  | recordChunk =>
    rw [Archive.step] at hstep
    split at hstep
    · next filteredOut chunk chunks hcommitted =>
      cases hstep
      exact h.recordChunk hcommitted
    · cases hstep
  | endRun =>
    rw [Archive.step] at hstep
    split at hstep
    · next filteredOut hrunning =>
      cases hstep
      exact h.endRun hrunning hkeeps
    · cases hstep
  | kill =>
    cases hstep
    exact h.withUploader trivial

/-- What a run leaves behind is missing on the remote. -/
theorem not_leaves (h : s.Sound) {a : ArchiveAction} (hstep : s.step maxSize a = some s')
    (hcomplete : s'.UploadsComplete) : ¬ s.Leaves a := by
  rintro (⟨rfl, houtdated, filteredOut, hrunning, -⟩ | ⟨rfl, -, ⟨filteredOut, hrunning⟩, op, hop, hnot⟩)
  · rw [Archive.step, hrunning] at hstep
    cases hstep
    have hdatabase := (hcomplete rfl).database
    obtain ⟨db, heq, hdb⟩ := h.database _ hdatabase
    cases heq
    rw [if_pos houtdated] at hdb
    exact absurd hdb (lt_irrefl _)
  · rw [Archive.step, hrunning] at hstep
    cases hstep
    have hdone := hcomplete rfl
    rcases h.known op (mem_known_of_lastCommit hop) with rfl | ⟨id, -, i, sources, rfl⟩
    · exact hnot (h.uploaded_of_remote (mem_known_of_lastCommit hop)
        (Option.isSome_of_eq_some hdone.database))
    · exact hnot (h.uploaded_of_remote (mem_known_of_lastCommit hop)
        (Option.isSome_of_eq_some (hdone.blobs _ _ hop)))

end Sound

/-- In a run of builds and uploads, interrupted anywhere, every upload run that ends is complete
exactly when none ends that left out a changed database, or the blobs of a commit for those of a
dry run. -/
theorem uploadsComplete_iff (maxSize : ℤ) (avc : Avc) (disk : Disk) (as : List ArchiveAction)
    (s : Archive) (hrun : Runs.perform (step maxSize) (initial avc disk) as = some s) :
    (∀ before t, before <+: as → Runs.perform (step maxSize) (initial avc disk) before = some t →
      t.UploadsComplete) ↔
    ∀ before a t, before ++ [a] <+: as →
      Runs.perform (step maxSize) (initial avc disk) before = some t → ¬ t.Leaves a :=
  Runs.good_iff_meets (I := Sound) Sound.uploadsComplete (sound_initial avc disk)
    (fun h hkeeps hstep => h.step hkeeps hstep) (fun h hstep hcomplete => h.not_leaves hstep hcomplete)
    hrun

/-- One file is committed and uploaded. -/
def firstUpload : List ArchiveAction :=
  [.write ⟨true, ["data", "a.bin"]⟩ [1, 2, 3], .add ⟨false, ["a.bin"]⟩ none,
    .buildGitCommit "c1" false, .loadOperations, .runChunk, .recordChunk, .endRun]

/-- The file has grown, and the upload of the second commit skips the database. -/
def secondUpload : List ArchiveAction :=
  [.write ⟨true, ["data", "a.bin"]⟩ [4], .add ⟨false, ["a.bin"]⟩ none,
    .buildGitCommit "c2" false, .loadOperations, .runChunk, .recordChunk, .endRun]

/-- A run that ends has uploaded all of the last commit. -/
def upToDate (s : Archive) : ArchiveAction → Bool
  | .endRun => !s.outdated && s.gitOperations = some s.lastCommit
  | _ => true

theorem not_leaves_of_upToDate {a : ArchiveAction} (h : s.upToDate a) : ¬ s.Leaves a := by
  rintro (⟨rfl, houtdated, -⟩ | ⟨rfl, hother, -⟩)
  · simp [upToDate, houtdated] at h
  · simp [upToDate, hother] at h

theorem uploadsComplete_firstUpload :
    ∃ s, Runs.perform (step deployedMaxSize) (initial (Avc.init ⟨true, ["data"]⟩) fun _ => .missing)
      firstUpload = some s ∧ s.UploadsComplete ∧ s.uploader = .ended := by
  have hrun : (Runs.performIf (step deployedMaxSize) (fun s a => s.upToDate a)
      (initial (Avc.init ⟨true, ["data"]⟩) fun _ => .missing) firstUpload).any
      (fun s => s.uploader matches .ended) := by
    decide +kernel
  obtain ⟨s, hs, hended⟩ := (Option.any_eq_true _ _).mp hrun
  obtain ⟨hperform, hmeets⟩ := Runs.meets_of_performIf hs
  have hcomplete := (uploadsComplete_iff deployedMaxSize (Avc.init ⟨true, ["data"]⟩)
    (fun _ => .missing) firstUpload s hperform).mpr
    fun before a t hprefix hbefore => not_leaves_of_upToDate (hmeets before a t hprefix hbefore)
  refine ⟨s, hperform, hcomplete firstUpload s (List.prefix_refl _) hperform, ?_⟩
  split at hended
  · assumption
  · cases hended

/-- The database on the remote. -/
def remoteDb (s : Archive) : Option GlobalDb :=
  match s.remote .globalStateDb with
  | some (.database db) => some db
  | _ => none

theorem not_uploadsComplete :
    ¬∀ (maxSize : ℤ) (avc : Avc) (disk : Disk) (as : List ArchiveAction) (s : Archive),
      Runs.perform (step maxSize) (initial avc disk) as = some s → s.UploadsComplete := by
  intro hall
  have hrun : (Runs.perform (step deployedMaxSize)
      (initial (Avc.init ⟨true, ["data"]⟩) fun _ => .missing) (firstUpload ++ secondUpload)).any
      (fun s => (s.uploader matches .ended) &&
        s.remoteDb.map (·.commits.length) ≠ some s.avc.globalDb.commits.length) := by
    decide +kernel
  obtain ⟨s, hs, hstale⟩ := (Option.any_eq_true _ _).mp hrun
  rw [Bool.and_eq_true] at hstale
  obtain ⟨hended, hstale⟩ := hstale
  have hcomplete := hall _ _ _ _ s hs
  have hdatabase : s.remoteDb = some s.avc.globalDb := by
    split at hended
    · next h => rw [remoteDb, (hcomplete h).database]
    · cases hended
  rw [hdatabase] at hstale
  simp at hstale

end Archive

end NpmFollower.DatabaseExporting
