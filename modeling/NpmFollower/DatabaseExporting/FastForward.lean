import NpmFollower.DatabaseExporting.CommitBlobs

/-! # Fast-forwarding a clone

The commits that a clone has not seen are applied from the oldest on. Each takes the files
from their sizes before it to their sizes after it, and uses up its own blobs.
-/

namespace NpmFollower.DatabaseExporting

open Tiling

/-! ## Sizes along the changes of a commit -/

section Sizes

variable {committed : Option ℤ} {n : ℤ} {e : Extent} {es : List Extent}
  {size : Path → Option ℤ} {rows : List CommitChange} {path : Path}

theorem Fits.head_append (h : Fits committed n (e :: es)) (htype : e.type = .append) :
    committed = some e.startOffset := by
  cases h with
  | create => cases htype
  | append _ _ tiles => rw [tiles.start_eq]

/-- After its first change a file goes on from where that ends. -/
theorem Fits.tail (h : Fits committed n (e :: es)) (hne : es ≠ []) :
    Fits (some (e.startOffset + e.numBytes)) n es := by
  cases h with
  | create path k positive tiles =>
    dsimp only
    rw [zero_add]
    exact .append hne positive tiles
  | append _ positive tiles =>
    have hrest := tiles.rest
    rw [← tiles.start_eq] at hrest
    exact .append hne (fun d hd => positive d (List.mem_cons_of_mem _ hd)) hrest

theorem goOn_of_fits (h : ∀ path, rows.filter (·.path = path) ≠ [] →
    ∃ n, Fits (size path) n ((rows.filter (·.path = path)).map CommitChange.extent)) :
    GoOn size rows := by
  induction rows generalizing size with
  | nil => trivial
  | cons c rest ih =>
    have hsame : (c :: rest).filter (·.path = c.path) = c :: rest.filter (·.path = c.path) :=
      List.filter_cons_of_pos (by simp)
    obtain ⟨n, hfits⟩ := h c.path (by rw [hsame]; simp)
    rw [hsame, List.map_cons] at hfits
    refine ⟨fun htype => hfits.head_append htype, ih ?_⟩
    intro path hne
    by_cases hpath : path = c.path
    · subst hpath
      refine ⟨n, ?_⟩
      rw [grownBy, Function.update_self]
      exact hfits.tail (by simpa using hne)
    · have hother : (c :: rest).filter (·.path = path) = rest.filter (·.path = path) :=
        List.filter_cons_of_neg (by simpa using Ne.symm hpath)
      rw [grownBy, Function.update_of_ne hpath, ← hother]
      exact h path (by rwa [hother])

theorem foldl_grownBy_absent (h : rows.filter (·.path = path) = []) :
    rows.foldl grownBy size path = size path := by
  induction rows using List.reverseRecOn with
  | nil => rfl
  | append_singleton rows c ih =>
    rw [List.filter_append, List.append_eq_nil_iff] at h
    have hne : path ≠ c.path := by
      rintro rfl
      simp at h
    rw [List.foldl_append, List.foldl_cons, List.foldl_nil, grownBy, Function.update_of_ne hne]
    exact ih h.1

/-- The last change of a file leaves it where the changes end. -/
theorem foldl_grownBy_of_tiles {a b : ℤ} (hne : rows.filter (·.path = path) ≠ [])
    (h : ExtentTiles a b ((rows.filter (·.path = path)).map CommitChange.extent)) :
    rows.foldl grownBy size path = some b := by
  induction rows using List.reverseRecOn with
  | nil => exact absurd rfl hne
  | append_singleton rows c ih =>
    rw [List.foldl_append, List.foldl_cons, List.foldl_nil, grownBy]
    rw [List.filter_append] at hne h
    by_cases hpath : path = c.path
    · subst hpath
      rw [Function.update_self]
      rw [List.filter_cons_of_pos (by simp), List.filter_nil, List.map_append] at h
      exact congrArg some h.last
    · rw [Function.update_of_ne hpath]
      rw [List.filter_cons_of_neg (by simpa using Ne.symm hpath), List.filter_nil,
        List.append_nil] at hne h
      exact ih hne h

end Sizes

/-! ## One commit -/

section Commit

variable {avc : Avc} {commit : Commit} {older : List Commit}

/-- The changes of one commit. -/
def GlobalDb.rowsOf (db : GlobalDb) (id : CommitId) : List CommitChange :=
  db.commitChanges.filter (·.commitId = id)

theorem GlobalDb.mem_rowsOf {db : GlobalDb} {id : CommitId} {c : CommitChange} :
    c ∈ db.rowsOf id ↔ c ∈ db.commitChanges ∧ c.commitId = id := by
  simp [rowsOf]

/-- Whatever the order in a batch is, the changes of one file keep theirs. -/
theorem Avc.Chained.filter_order (h : avc.Chained) (batches : BatchOrder) (id : CommitId)
    (path : Path) : (batches.order (avc.globalDb.rowsOf id)).filter (·.path = path) =
      avc.globalDb.changesOf id path := by
  have hordered := h.changesOf_ordered id path
  have hperm : ((batches.order (avc.globalDb.rowsOf id)).filter (·.path = path)).Perm
      (avc.globalDb.changesOf id path) := by
    have hfilter : (avc.globalDb.rowsOf id).filter (·.path = path) =
        avc.globalDb.changesOf id path := by
      rw [GlobalDb.rowsOf, List.filter_filter, GlobalDb.changesOf]
      apply List.filter_congr
      intro c _
      simp [Bool.and_comm]
    rw [← hfilter]
    exact (batches.perm _).filter _
  have hids : ((avc.globalDb.changesOf id path).map CommitChange.batchId).Nodup :=
    (List.pairwise_map.mpr hordered).imp fun hlt => Nat.ne_of_lt hlt
  have hsorted : ((batches.order (avc.globalDb.rowsOf id)).filter (·.path = path)).Pairwise
      (fun c d => c.batchId ≤ d.batchId) := (batches.sorted _).sublist List.filter_sublist
  refine hperm.eq_of_pairwise ?_ hsorted (hordered.imp fun hlt => Nat.le_of_lt hlt)
  intro c d hc hd hle hge
  exact List.inj_on_of_nodup_map hids (hperm.subset hc) hd (Nat.le_antisymm hle hge)

variable (h : avc.Chained) (hcommit : commit :: older <:+ avc.globalDb.commits)
  (batches : BatchOrder)

include h hcommit

theorem Avc.Chained.goOn_order : GoOn (fun path => avc.globalDb.sizeAlong path older)
    (batches.order (avc.globalDb.rowsOf commit.id)) := by
  apply goOn_of_fits
  intro path hne
  rw [h.filter_order] at hne ⊢
  exact h.grows commit older path hcommit hne

theorem Avc.Chained.sizes_order (path : Path) :
    (batches.order (avc.globalDb.rowsOf commit.id)).foldl grownBy
      (fun path => avc.globalDb.sizeAlong path older) path =
        avc.globalDb.sizeAlong path (commit :: older) := by
  by_cases hnone : avc.globalDb.changesOf commit.id path = []
  · rw [GlobalDb.sizeAlong_unchanged hnone, foldl_grownBy_absent]
    rw [h.filter_order, hnone]
  · obtain ⟨n, hfits⟩ := h.grows commit older path hcommit hnone
    rw [h.sizeAlong_changed hfits]
    apply foldl_grownBy_of_tiles
    · rwa [h.filter_order]
    · rw [h.filter_order]
      exact hfits.tiles

end Commit

/-- A size along commits is where one of their changes ends. -/
theorem GlobalDb.sizeAlong_some {db : GlobalDb} {path : Path} {commits : List Commit} {n : ℤ}
    (h : db.sizeAlong path commits = some n) :
    ∃ c ∈ db.commitChanges, c.path = path ∧ c.startOffset + c.numBytes = n := by
  induction commits with
  | nil => cases h
  | cons commit older ih =>
    rw [sizeAlong] at h
    split at h
    · next row hrow =>
      have hmem := List.argmax_mem hrow
      simp only [changesOf, List.mem_filter, decide_eq_true_eq] at hmem
      exact ⟨row, hmem.1, hmem.2.2, Option.some.inj h⟩
    · exact ih h

/-- The line of an older commit is the rest from it on. -/
theorem Line.of_suffix {commits older : List Commit} {commit : Commit} {head : Option CommitId}
    (h : Line commits head) (hsuffix : commit :: older <:+ commits) :
    Line (commit :: older) (some commit.id) := by
  induction h with
  | root => exact absurd (List.eq_nil_of_suffix_nil hsuffix) (by simp)
  | commit fresh rest ih =>
    rcases List.suffix_cons_iff.mp hsuffix with hwhole | hrest
    · obtain ⟨rfl, rfl⟩ := List.cons.inj hwhole
      exact .commit fresh rest
    · exact ih hrest

theorem Line.head_eq {commits : List Commit} {head : Option CommitId} (h : Line commits head) :
    head = commits.head?.map Commit.id := by
  cases h <;> rfl

/-- The walk from the latest commit finds those after `HEAD`, the oldest first. -/
theorem commitsToApply_line {db : GlobalDb} {head main : Option CommitId} {newer older : List Commit}
    (hline : Line (newer ++ older) main) (hhead : Line older head)
    (hsuffix : newer ++ older <:+ db.commits) (hnodup : (db.commits.map Commit.id).Nodup) {fuel : ℕ}
    (hfuel : newer.length ≤ fuel) (ids : List CommitId) :
    Clone.commitsToApply db head fuel main ids = .ok ((newer.map Commit.id).reverse ++ ids) := by
  induction newer generalizing fuel main ids with
  | nil =>
    have heq : main = head := by
      rw [hline.head_eq, hhead.head_eq]
      rfl
    rw [Clone.commitsToApply.eq_def]
    dsimp only
    rw [if_pos heq]
    rfl
  | cons commit newer ih =>
    cases fuel with
    | zero => simp at hfuel
    | succ fuel =>
      cases hline with
      | @commit id parent _ fresh rest =>
        have hne : some id ≠ head := by
          rw [hhead.head_eq]
          intro heq
          obtain ⟨c, hc, hid⟩ := Option.map_eq_some_iff.mp heq.symm
          exact fresh c (List.mem_append_right _ (List.mem_of_mem_head? hc)) hid
        have hparent : db.getParent id = .ok parent :=
          GlobalDb.getParent_of_mem hnodup (hsuffix.subset List.mem_cons_self)
        rw [Clone.commitsToApply.eq_def]
        dsimp only
        rw [if_neg hne, hparent]
        dsimp only
        rw [ih rest ((List.suffix_cons _ _).trans hsuffix) (by simpa using hfuel)]
        simp

/-! ## A clone that follows the source -/

/-- The clone is where the given commits have taken it: their blobs are used up, and the blobs of
the others wait. -/
structure Mirrors (avc : Avc) (source : Path → Bytes) (paths : Set Path) (uploads : List Upload)
    (older : List Commit) (clone : Clone) : Prop where
  db : clone.avc.globalDb = avc.globalDb
  staged : clone.avc.localDb.stagedChanges = []
  head : Line older clone.avc.localDb.head
  apart : clone.Apart paths {name | name ∈ uploads.map Upload.name} clone.tree
  follows : clone.Follows source (fun path => avc.globalDb.sizeAlong path older) clone.tree
  waiting : ∀ u ∈ uploads, (∀ c ∈ older, c.id ≠ u.name.commitId) →
    clone.tree.Holds (clone.blobPath u.name) u.content ∧
      clone.consumed.count (clone.blobPath u.name) = 0
  used : ∀ u ∈ uploads, (∃ c ∈ older, c.id = u.name.commitId) →
    clone.tree (clone.blobPath u.name).normpath = none ∧
      clone.consumed.count (clone.blobPath u.name) = 1
  taken : ∀ p ∈ clone.consumed, ∃ u ∈ uploads, p = clone.blobPath u.name

namespace Mirrors

variable {avc : Avc} {source : Path → Bytes} {paths : Set Path} {uploads : List Upload}
  {older : List Commit} {commit : Commit} {clone : Clone}

theorem count_taken {taken : List Path} {p : Path} (h : taken.Nodup) :
    taken.count p = if p ∈ taken then 1 else 0 := by
  split_ifs with hmem
  · exact List.count_eq_one_of_mem h hmem
  · exact List.count_eq_zero_of_not_mem hmem

variable (h : Mirrors avc source paths uploads older clone) (hchained : avc.Chained)
  (huploaded : Uploaded source avc.globalDb.commitChanges uploads)
  (hpaths : ∀ c ∈ avc.globalDb.commitChanges, c.path ∈ paths)
  (hrows : ∀ commit ∈ avc.globalDb.commits, avc.globalDb.rowsOf commit.id ≠ [])
  (batches : BatchOrder)

include h hchained huploaded hpaths hrows

theorem applyCommit (hcommit : commit :: older <:+ avc.globalDb.commits)
    (hline : Line (commit :: older) (some commit.id)) : ∃ clone',
    clone.applyCommit batches commit.id = (clone', none) ∧
      Mirrors avc source paths uploads (commit :: older) clone' := by
  have hnames : ∀ c ∈ avc.globalDb.commitChanges, c.blobName ∈ uploads.map Upload.name := by
    intro c hc
    obtain ⟨content, hmem, -⟩ := huploaded.backed c hc
    exact List.mem_map.mpr ⟨_, hmem, rfl⟩
  have hmem : ∀ c ∈ batches.order (avc.globalDb.rowsOf commit.id),
      c ∈ avc.globalDb.commitChanges ∧ c.commitId = commit.id := fun c hc =>
    GlobalDb.mem_rowsOf.mp ((batches.perm _).subset hc)
  have hfresh : ∀ c ∈ older, c.id ≠ commit.id := by
    cases hline with
    | commit fresh _ => exact fresh
  have hbacked : ∀ c ∈ batches.order (avc.globalDb.rowsOf commit.id), ∃ content,
      clone.tree.Holds (clone.blobPath c.blobName) content ∧ c.Backed (source c.path) content := by
    intro c hc
    obtain ⟨hrow, hid⟩ := hmem c hc
    obtain ⟨content, hupload, hcontent⟩ := huploaded.backed c hrow
    refine ⟨content, (h.waiting _ hupload ?_).1, hcontent⟩
    dsimp only
    rw [huploaded.commit c hrow, hid]
    exact hfresh
  have howned : (batches.order (avc.globalDb.rowsOf commit.id)).Pairwise fun c d =>
      c.type = .create ∨ d.type = .create → c.blobName ≠ d.blobName := by
    refine (List.Perm.pairwise_iff ?_ (batches.perm _)).mpr
      (huploaded.owned.sublist List.filter_sublist)
    intro c d hcd htype
    exact (hcd htype.symm).symm
  have hwhole : ∀ c ∈ batches.order (avc.globalDb.rowsOf commit.id), c.type = .create →
      c.blobOffset = 0 ∧ c.startOffset = 0 ∧ ∃ size : ℕ,
        clone.tree.getsize (clone.blobPath c.blobName) = .ok size ∧ c.numBytes = size := by
    intro c hc htype
    obtain ⟨content, hholds, hcontent⟩ := hbacked c hc
    obtain ⟨hblob, hstart, hlength⟩ := hcontent.whole htype
    exact ⟨hblob, hstart, content.length, hholds.getsize, hlength.symm⟩
  have hsizes : ∀ p n, avc.globalDb.sizeAlong p older = some n → p ∈ paths := by
    intro p n hn
    obtain ⟨c, hc, rfl, -⟩ := GlobalDb.sizeAlong_some hn
    exact hpaths c hc
  obtain ⟨deletedSet, hplan, -⟩ := clone.plan_ok hwhole
  obtain ⟨tree', taken, hrun, happlied, hfollows⟩ := @Clone.run_planned _ _ _ _ _ _ clone.consumed _
    h.apart hsizes (fun c hc => ⟨hpaths c (hmem c hc).1, hnames c (hmem c hc).1⟩) h.follows
    (hchained.goOn_order hcommit batches) hbacked howned
  have hne : batches.order (avc.globalDb.rowsOf commit.id) ≠ [] := by
    intro hnil
    have hperm := batches.perm (avc.globalDb.rowsOf commit.id)
    rw [hnil] at hperm
    exact hrows commit (hcommit.subset List.mem_cons_self) hperm.nil_eq.symm
  -- a blob is taken now when its commit is this one
  have htaken : ∀ u ∈ uploads, clone.blobPath u.name ∈ taken ↔ u.name.commitId = commit.id := by
    intro u hu
    rw [happlied.taken]
    constructor
    · rintro ⟨c, hc, heq⟩
      obtain ⟨hrow, hid⟩ := hmem c hc
      have hname := h.apart.blobs _ (List.mem_map_of_mem hu) _ (hnames c hrow)
        (congrArg Path.normpath heq)
      rw [hname, huploaded.commit c hrow, hid]
    · intro hid
      obtain ⟨c, hc, heq⟩ := huploaded.used u hu
      refine ⟨c, ?_, by rw [heq]⟩
      apply (batches.perm _).symm.subset
      rw [GlobalDb.mem_rowsOf, ← huploaded.commit c hc, heq]
      exact ⟨hc, hid⟩
  have hother : ∀ u ∈ uploads, u.name.commitId ≠ commit.id →
      tree' (clone.blobPath u.name).normpath = clone.tree (clone.blobPath u.name).normpath := by
    intro u hu hid
    apply happlied.others
    intro c hc
    obtain ⟨hrow, hcid⟩ := hmem c hc
    refine ⟨(h.apart.notBlob _ (hpaths c hrow) _ (List.mem_map_of_mem hu)).symm, fun heq => ?_⟩
    have hname := h.apart.blobs _ (List.mem_map_of_mem hu) _ (hnames c hrow) heq
    rw [hname, huploaded.commit c hrow] at hid
    exact hid hcid
  refine ⟨(clone.withFiles tree' (clone.consumed ++ taken)).withHead commit.id, ?_, ?_⟩
  · unfold Clone.applyCommit
    have hfilter : avc.globalDb.commitChanges.filter (·.commitId = commit.id) =
      avc.globalDb.rowsOf commit.id := rfl
    have hstart : clone.withFiles clone.tree clone.consumed = clone := rfl
    rw [hstart] at hrun
    rw [h.db]
    dsimp only
    rw [hfilter, if_neg hne, hplan]
    dsimp only
    rw [hrun]
  · have hapart := h.apart.of_directories happlied.directories
    exact {
      db := h.db
      staged := h.staged
      head := hline
      apart := ⟨hapart.reached, hapart.notDirectory, hapart.notBlob, hapart.files, hapart.blobs⟩
      follows := by
        intro path n hn
        apply hfollows
        rw [hchained.sizes_order hcommit]
        exact hn
      waiting := by
        intro u hu hid
        rw [List.forall_mem_cons] at hid
        obtain ⟨hholds, hcount⟩ := h.waiting u hu hid.2
        refine ⟨hholds.of_eq happlied.directories (hother u hu (Ne.symm hid.1)), ?_⟩
        change (clone.consumed ++ taken).count (clone.blobPath u.name) = 0
        rw [List.count_append, hcount, count_taken happlied.nodup,
          if_neg fun hmem => hid.1 ((htaken u hu).mp hmem).symm]
      used := by
        intro u hu hid
        change tree' (clone.blobPath u.name).normpath = none ∧
          (clone.consumed ++ taken).count (clone.blobPath u.name) = 1
        rw [List.count_append, count_taken happlied.nodup]
        rw [List.exists_mem_cons_iff] at hid
        by_cases hnow : u.name.commitId = commit.id
        · have hold : ∀ c ∈ older, c.id ≠ u.name.commitId := by
            rw [hnow]
            exact hfresh
          rw [(h.waiting u hu hold).2, if_pos ((htaken u hu).mpr hnow)]
          refine ⟨?_, rfl⟩
          obtain ⟨c, hc, heq⟩ := huploaded.used u hu
          rw [← heq]
          apply happlied.gone
          apply (batches.perm _).symm.subset
          rw [GlobalDb.mem_rowsOf, ← huploaded.commit c hc, heq]
          exact ⟨hc, hnow⟩
        · obtain ⟨hgone, hcount⟩ := h.used u hu (hid.resolve_left fun heq => hnow heq.symm)
          rw [hcount, if_neg fun hmem => hnow ((htaken u hu).mp hmem), hother u hu hnow]
          exact ⟨hgone, rfl⟩
      taken := by
        intro p hp
        rcases List.mem_append.mp hp with hold | hnow
        · exact h.taken p hold
        · obtain ⟨c, hc, rfl⟩ := (happlied.taken p).mp hnow
          obtain ⟨u, hu, heq⟩ := List.mem_map.mp (hnames c (hmem c hc).1)
          exact ⟨u, hu, by rw [heq]; rfl⟩ }

/-- All commits that the clone has not seen, from the oldest on. -/
theorem applyCommits {newer : List Commit} (hcommits : newer ++ older = avc.globalDb.commits) :
    ∃ clone', untilRaise (fun c id => Clone.applyCommit c batches id) clone
        (newer.map Commit.id).reverse = (clone', none) ∧
      Mirrors avc source paths uploads avc.globalDb.commits clone' := by
  induction newer using List.reverseRecOn generalizing older clone with
  | nil =>
    refine ⟨clone, rfl, ?_⟩
    rwa [← hcommits]
  | append_singleton newer commit ih =>
    rw [List.append_assoc, List.singleton_append] at hcommits
    have hsuffix : commit :: older <:+ avc.globalDb.commits := ⟨newer, hcommits⟩
    obtain ⟨clone₁, happly, hmirrors⟩ := h.applyCommit hchained huploaded hpaths hrows batches hsuffix
      (hchained.line.of_suffix hsuffix)
    obtain ⟨clone', hrest, hdone⟩ := ih hmirrors hcommits
    refine ⟨clone', ?_, hdone⟩
    rw [List.map_append, List.reverse_append, List.map_cons, List.map_nil, List.reverse_singleton,
      List.singleton_append, untilRaise_cons happly]
    exact hrest

theorem fastForward (holder : older <:+ avc.globalDb.commits) : ∃ clone',
    clone.fastForward batches = (clone', none) ∧
      Mirrors avc source paths uploads avc.globalDb.commits clone' := by
  obtain ⟨newer, hcommits⟩ := holder
  obtain ⟨clone', happly, hdone⟩ := h.applyCommits hchained huploaded hpaths hrows batches hcommits
  have hline : Line (newer ++ older) avc.globalDb.main := by
    rw [hcommits, hchained.main]
    exact hchained.line
  have hfuel : newer.length ≤ avc.globalDb.commits.length := by
    rw [← hcommits, List.length_append]
    omega
  have hwalk := commitsToApply_line hline h.head ⟨[], by rw [hcommits]; rfl⟩ hchained.line.nodup
    hfuel []
  refine ⟨clone', ?_, hdone⟩
  rw [Clone.fastForward, if_neg (not_not.mpr h.staged), h.db, hwalk, List.append_nil]
  exact happly

end Mirrors

end NpmFollower.DatabaseExporting
