import NpmFollower.DatabaseExporting.CloneFiles

/-! # Applying a commit

Along the changes of a commit every file grows from its committed size, and a blob file is
there until the last change that uses it. So the plan meets no assertion, and it takes
every blob file of the commit away once.
-/

namespace NpmFollower.DatabaseExporting

open FileTree

/-- The content of the blob has the part of the source file that a change is about. -/
structure CommitChange.Backed (source content : Bytes) (c : CommitChange) : Prop where
  blobOffset_nonneg : 0 ≤ c.blobOffset
  startOffset_nonneg : 0 ≤ c.startOffset
  numBytes_nonneg : 0 ≤ c.numBytes
  within : c.startOffset + c.numBytes ≤ source.length
  slice : (content.drop c.blobOffset.toNat).take c.numBytes.toNat =
    (source.drop c.startOffset.toNat).take c.numBytes.toNat
  whole : c.type = .create → c.blobOffset = 0 ∧ c.startOffset = 0 ∧ content.length = c.numBytes

namespace CommitChange.Backed

variable {source content : Bytes} {c : CommitChange} (h : c.Backed source content)
include h

theorem length_slice :
    (((content.drop c.blobOffset.toNat).take c.numBytes.toNat).length : ℤ) = c.numBytes := by
  have hwithin := h.within
  have hstart := h.startOffset_nonneg
  have hbytes := h.numBytes_nonneg
  rw [h.slice, List.length_take, List.length_drop]
  omega

/-- What the clone has of the file, with the slice behind it. -/
theorem take_append :
    source.take c.startOffset.toNat ++ (content.drop c.blobOffset.toNat).take c.numBytes.toNat =
      source.take (c.startOffset + c.numBytes).toNat := by
  rw [h.slice, Int.toNat_add h.startOffset_nonneg h.numBytes_nonneg, List.take_add]

/-- A create's blob is the beginning of the file. -/
theorem content_of_create (htype : c.type = .create) :
    content = source.take (c.startOffset + c.numBytes).toNat := by
  obtain ⟨hblob, hstart, hlength⟩ := h.whole htype
  have hslice := h.slice
  rw [hblob, hstart] at hslice
  rw [hstart, zero_add, ← hlength]
  rw [← hlength] at hslice
  simpa using hslice

end CommitChange.Backed

/-- The sizes after a change. -/
def grownBy (size : Path → Option ℤ) (c : CommitChange) : Path → Option ℤ :=
  Function.update size c.path (some (c.startOffset + c.numBytes))

/-- Every append begins where the changes before it have left its file. -/
def GoOn : (Path → Option ℤ) → List CommitChange → Prop
  | _, [] => True
  | size, c :: rest =>
    (c.type = .append → size c.path = some c.startOffset) ∧ GoOn (grownBy size c) rest

section UntilRaise

variable {σ α ε : Type} {f : σ → α → σ × Option ε} {s s' : σ} {a : α} {as : List α}

theorem untilRaise_cons (h : f s a = (s', none)) : untilRaise f s (a :: as) = untilRaise f s' as := by
  rw [untilRaise, h]

end UntilRaise

namespace Clone

variable (clone : Clone)

/-! ## The plan -/

/-- The blobs that appends use. -/
def appendBlobs (rows : List CommitChange) : List Path :=
  (rows.filter (·.type = .append)).map fun c => clone.blobPath c.blobName

theorem mem_appendBlobs {rows : List CommitChange} {p : Path} :
    p ∈ clone.appendBlobs rows ↔ ∃ c ∈ rows, c.type = .append ∧ clone.blobPath c.blobName = p := by
  simp [appendBlobs, and_assoc]

/-- The operations for the changes, from the first to the last. -/
def planned : List CommitChange → List IoOperation
  | [] => []
  | c :: rest =>
    match c.type with
    | .create => .move (clone.blobPath c.blobName) (clone.absDst c.path) :: planned rest
    | .append =>
      .appendBytes (clone.blobPath c.blobName) c.blobOffset c.numBytes (clone.absDst c.path)
        c.startOffset ::
      if clone.blobPath c.blobName ∈ clone.appendBlobs rest then planned rest
      else .delete (clone.blobPath c.blobName) :: planned rest

/-- The plan is made where every create has its whole blob. -/
theorem plan_ok {rows : List CommitChange}
    (h : ∀ c ∈ rows, c.type = .create → c.blobOffset = 0 ∧ c.startOffset = 0 ∧
      ∃ size : ℕ, clone.tree.getsize (clone.blobPath c.blobName) = .ok size ∧ c.numBytes = size) :
    ∃ deletedSet, clone.plan rows = .ok ⟨clone.planned rows, deletedSet⟩ ∧
      ∀ p, p ∈ deletedSet ↔ p ∈ clone.appendBlobs rows := by
  induction rows with
  | nil => exact ⟨[], rfl, fun p => by simp [appendBlobs]⟩
  | cons c rest ih =>
    rw [List.forall_mem_cons] at h
    obtain ⟨deletedSet, hplan, hdeleted⟩ := ih h.2
    have hcons : clone.plan (c :: rest) = clone.planChange c ⟨clone.planned rest, deletedSet⟩ := by
      rw [plan, List.foldrM_cons]
      change (clone.plan rest >>= _) = _
      rw [hplan]
      rfl
    rw [hcons, planChange, planned]
    cases htype : c.type with
    | create =>
      obtain ⟨hblob, hstart, size, hsize, hbytes⟩ := h.1 htype
      refine ⟨deletedSet, ?_, ?_⟩
      · simp [hblob, hstart, hsize, hbytes]
      · intro p
        rw [hdeleted, mem_appendBlobs, mem_appendBlobs]
        simp [htype]
    | append =>
      by_cases hmem : clone.blobPath c.blobName ∈ clone.appendBlobs rest
      · refine ⟨deletedSet, ?_, ?_⟩
        · simp [hmem, hdeleted]
        · intro p
          rw [hdeleted]
          constructor
          · rw [mem_appendBlobs, mem_appendBlobs]
            rintro ⟨d, hd, hrest⟩
            exact ⟨d, List.mem_cons_of_mem _ hd, hrest⟩
          · rw [mem_appendBlobs]
            rintro ⟨d, hd, happend, rfl⟩
            rcases List.mem_cons.mp hd with rfl | hd
            · exact hmem
            · exact clone.mem_appendBlobs.mpr ⟨d, hd, happend, rfl⟩
      · refine ⟨clone.blobPath c.blobName :: deletedSet, ?_, ?_⟩
        · simp [hmem, hdeleted]
        · intro p
          rw [List.mem_cons, hdeleted, mem_appendBlobs, mem_appendBlobs]
          simp [htype, eq_comm]

/-! ## The run of the plan -/

def withFiles (tree : FileTree) (consumed : List Path) : Clone := { clone with tree, consumed }

/-- The places of some files and blobs do not get into each other's way. -/
structure Apart (paths : Set Path) (names : Set BlobName) (tree : FileTree) : Prop where
  reached : ∀ p ∈ paths, tree.blocked (clone.absDst p) = none
  notDirectory : ∀ p ∈ paths, tree.isDirectory (clone.absDst p).normpath = false
  notBlob : ∀ p ∈ paths, ∀ n ∈ names,
    (clone.absDst p).normpath ≠ (clone.blobPath n).normpath
  files : ∀ p ∈ paths, ∀ q ∈ paths,
    (clone.absDst p).normpath = (clone.absDst q).normpath → p = q
  blobs : ∀ m ∈ names, ∀ n ∈ names,
    (clone.blobPath m).normpath = (clone.blobPath n).normpath → m = n

/-- Every file with a size has that many bytes of its source. -/
def Follows (source : Path → Bytes) (size : Path → Option ℤ) (tree : FileTree) : Prop :=
  ∀ path n, size path = some n → tree.Holds (clone.absDst path) ((source path).take n.toNat)

/-- What the plan for some changes has done. -/
structure Applied (rows : List CommitChange) (tree tree' : FileTree) (taken : List Path) : Prop where
  directories : tree'.isDirectory = tree.isDirectory
  others : ∀ x, (∀ c ∈ rows, x ≠ (clone.absDst c.path).normpath ∧
    x ≠ (clone.blobPath c.blobName).normpath) → tree' x = tree x
  gone : ∀ c ∈ rows, tree' (clone.blobPath c.blobName).normpath = none
  nodup : taken.Nodup
  taken : ∀ p, p ∈ taken ↔ ∃ c ∈ rows, p = clone.blobPath c.blobName

variable {clone} {paths : Set Path} {names : Set BlobName} {source : Path → Bytes}
  {size : Path → Option ℤ} {tree tree' : FileTree} {consumed : List Path} {rows : List CommitChange}
  {c : CommitChange}

theorem Apart.of_directories (h : clone.Apart paths names tree)
    (hdirs : tree'.isDirectory = tree.isDirectory) : clone.Apart paths names tree' where
  reached p hp := blocked_of_directories hdirs (h.reached p hp)
  notDirectory p hp := by
    rw [hdirs]
    exact h.notDirectory p hp
  notBlob := h.notBlob
  files := h.files
  blobs := h.blobs

theorem runOperation_ok {op : IoOperation} (h : op.run tree = .ok tree') :
    (clone.withFiles tree consumed).runOperation op =
      (clone.withFiles tree' (consumed ++ op.consumes), none) := by
  have hrun : op.run (clone.withFiles tree consumed).tree = .ok tree' := h
  rw [runOperation, hrun]
  rfl

/-- A file that grows leaves the others in their places. -/
theorem Follows.grow (h : clone.Follows source size tree)
    (hpaths : ∀ p n, size p = some n → p ∈ paths) (hdirs : tree'.isDirectory = tree.isDirectory)
    (hnew : tree'.Holds (clone.absDst c.path)
      ((source c.path).take (c.startOffset + c.numBytes).toNat))
    (hothers : ∀ p ∈ paths, p ≠ c.path →
      tree' (clone.absDst p).normpath = tree (clone.absDst p).normpath) :
    clone.Follows source (grownBy size c) tree' := by
  intro p n hn
  by_cases hp : p = c.path
  · subst hp
    rw [grownBy, Function.update_self] at hn
    cases hn
    exact hnew
  · rw [grownBy, Function.update_of_ne hp] at hn
    exact (h p n hn).of_eq hdirs (hothers p (hpaths p n hn) hp)

theorem sizes_grownBy (hpaths : ∀ p n, size p = some n → p ∈ paths) (hc : c.path ∈ paths) :
    ∀ p n, grownBy size c p = some n → p ∈ paths := by
  intro p n hn
  by_cases hp : p = c.path
  · rwa [hp]
  · rw [grownBy, Function.update_of_ne hp] at hn
    exact hpaths p n hn

/-! ### One change -/

section Change

variable {content : Bytes} (hapart : clone.Apart paths names tree) (hc : c.path ∈ paths)
  (hname : c.blobName ∈ names) (hblob : tree.Holds (clone.blobPath c.blobName) content)
  (hbacked : c.Backed (source c.path) content)

include hapart hc hblob hbacked

theorem run_append (hfollows : clone.Follows source size tree)
    (hsize : size c.path = some c.startOffset) : ∃ tree₁,
    (IoOperation.appendBytes (clone.blobPath c.blobName) c.blobOffset c.numBytes
      (clone.absDst c.path) c.startOffset).run tree = .ok tree₁ ∧
    tree₁.isDirectory = tree.isDirectory ∧
    (∀ x, x ≠ (clone.absDst c.path).normpath → tree₁ x = tree x) ∧
    tree₁.Holds (clone.absDst c.path)
      ((source c.path).take (c.startOffset + c.numBytes).toNat) := by
  have hold := hfollows c.path _ hsize
  have hend : c.startOffset = ((source c.path).take c.startOffset.toNat).length := by
    have hwithin := hbacked.within
    have hstart := hbacked.startOffset_nonneg
    have hbytes := hbacked.numBytes_nonneg
    rw [List.length_take]
    omega
  refine ⟨_, appendBytes_ok hblob hold hbacked.blobOffset_nonneg hend hbacked.length_slice,
    isDirectory_update hold.not_directory rfl, fun x hx => Function.update_of_ne hx .., ?_⟩
  rw [hbacked.take_append]
  exact holds_update (hapart.reached _ hc) hold.not_directory

include hname

theorem run_move (htype : c.type = .create) : ∃ tree₁,
    (IoOperation.move (clone.blobPath c.blobName) (clone.absDst c.path)).run tree = .ok tree₁ ∧
    tree₁.isDirectory = tree.isDirectory ∧
    (∀ x, x ≠ (clone.absDst c.path).normpath → x ≠ (clone.blobPath c.blobName).normpath →
      tree₁ x = tree x) ∧
    tree₁ (clone.blobPath c.blobName).normpath = none ∧
    tree₁.Holds (clone.absDst c.path)
      ((source c.path).take (c.startOffset + c.numBytes).toNat) := by
  have hreached := hapart.reached _ hc
  have hdst := hapart.notDirectory _ hc
  have hne := hapart.notBlob _ hc _ hname
  have hremoved : isDirectory (Function.update tree (clone.blobPath c.blobName).normpath none) =
      tree.isDirectory := isDirectory_update hblob.not_directory rfl
  have hdst' : isDirectory (Function.update tree (clone.blobPath c.blobName).normpath none)
      (clone.absDst c.path).normpath = false := by rwa [hremoved]
  refine ⟨_, rename_ok hblob hreached hdst, (isDirectory_update hdst' rfl).trans hremoved, ?_, ?_, ?_⟩
  · intro x hx hx'
    rw [Function.update_of_ne hx, Function.update_of_ne hx']
  · rw [Function.update_of_ne hne.symm, Function.update_self]
  · rw [← hbacked.content_of_create htype]
    exact holds_update (blocked_of_directories hremoved hreached) hdst'

end Change

theorem run_delete {content : Bytes} {path : Path} (h : tree.Holds path content) : ∃ tree₁,
    (IoOperation.delete path).run tree = .ok tree₁ ∧ tree₁.isDirectory = tree.isDirectory ∧
    (∀ x, x ≠ path.normpath → tree₁ x = tree x) ∧ tree₁ path.normpath = none :=
  ⟨_, remove_ok h, isDirectory_update h.not_directory rfl, fun _ hx => Function.update_of_ne hx ..,
    Function.update_self ..⟩

/-! ### All changes -/

section Cons

variable {tree₁ : FileTree} {rest : List CommitChange} {taken : List Path}
  (h : clone.Applied rest tree₁ tree' taken) (hdirs : tree₁.isDirectory = tree.isDirectory)
  (hothers : ∀ x, x ≠ (clone.absDst c.path).normpath → x ≠ (clone.blobPath c.blobName).normpath →
    tree₁ x = tree x)

include h hdirs hothers

/-- A change whose blob is used again. -/
theorem Applied.used (hused : ∃ d ∈ rest, clone.blobPath d.blobName = clone.blobPath c.blobName) :
    clone.Applied (c :: rest) tree tree' taken where
  directories := h.directories.trans hdirs
  others x hx := by
    rw [List.forall_mem_cons] at hx
    exact (h.others x hx.2).trans (hothers x hx.1.1 hx.1.2)
  gone := by
    rw [List.forall_mem_cons]
    refine ⟨?_, h.gone⟩
    obtain ⟨d, hd, heq⟩ := hused
    rw [← heq]
    exact h.gone d hd
  nodup := h.nodup
  taken p := by
    obtain ⟨d, hd, heq⟩ := hused
    rw [h.taken p, List.exists_mem_cons_iff]
    constructor
    · exact Or.inr
    · rintro (rfl | hrest)
      · exact ⟨d, hd, heq.symm⟩
      · exact hrest

/-- A change that is the last to use its blob. -/
theorem Applied.last (hapart : clone.Apart paths names tree)
    (hrows : ∀ d ∈ c :: rest, d.path ∈ paths ∧ d.blobName ∈ names)
    (hlast : ∀ d ∈ rest, d.blobName ≠ c.blobName)
    (hgone : tree₁ (clone.blobPath c.blobName).normpath = none) :
    clone.Applied (c :: rest) tree tree' (clone.blobPath c.blobName :: taken) where
  directories := h.directories.trans hdirs
  others x hx := by
    rw [List.forall_mem_cons] at hx
    exact (h.others x hx.2).trans (hothers x hx.1.1 hx.1.2)
  gone := by
    rw [List.forall_mem_cons] at hrows ⊢
    refine ⟨?_, h.gone⟩
    rw [← hgone]
    apply h.others
    intro d hd
    have hd' := hrows.2 d hd
    refine ⟨(hapart.notBlob _ hd'.1 _ hrows.1.2).symm, fun heq => hlast d hd ?_⟩
    exact hapart.blobs _ hd'.2 _ hrows.1.2 heq.symm
  nodup := by
    rw [List.forall_mem_cons] at hrows
    rw [List.nodup_cons]
    refine ⟨fun hmem => ?_, h.nodup⟩
    obtain ⟨d, hd, heq⟩ := (h.taken _).mp hmem
    exact hlast d hd (hapart.blobs _ (hrows.2 d hd).2 _ hrows.1.2 (congrArg Path.normpath heq.symm))
  taken p := by
    rw [List.mem_cons, h.taken p, List.exists_mem_cons_iff]

end Cons

/-- The plan is carried out without an exception, each file goes on with what was committed,
and every blob is taken away once. -/
theorem run_planned (hapart : clone.Apart paths names tree)
    (hpaths : ∀ p n, size p = some n → p ∈ paths)
    (hrows : ∀ c ∈ rows, c.path ∈ paths ∧ c.blobName ∈ names)
    (hfollows : clone.Follows source size tree) (hgoOn : GoOn size rows)
    (hbacked : ∀ c ∈ rows, ∃ content, tree.Holds (clone.blobPath c.blobName) content ∧
      c.Backed (source c.path) content)
    (howned : rows.Pairwise fun c d => c.type = .create ∨ d.type = .create →
      c.blobName ≠ d.blobName) : ∃ tree' taken,
    untilRaise runOperation (clone.withFiles tree consumed) (clone.planned rows) =
      (clone.withFiles tree' (consumed ++ taken), none) ∧
    clone.Applied rows tree tree' taken ∧ clone.Follows source (rows.foldl grownBy size) tree' := by
  induction rows generalizing tree consumed size with
  | nil =>
    refine ⟨tree, [], by rw [List.append_nil]; rfl, ⟨rfl, fun x _ => rfl, ?_, List.nodup_nil, ?_⟩,
      hfollows⟩
    · exact fun c hc => absurd hc List.not_mem_nil
    · simp
  | cons c rest ih =>
    have hrows' := hrows
    rw [List.forall_mem_cons] at hrows hbacked
    rw [List.pairwise_cons] at howned
    obtain ⟨⟨hc, hname⟩, hrest⟩ := hrows
    obtain ⟨⟨content, hblob, hcontent⟩, hbackedRest⟩ := hbacked
    -- the rest of the changes, from a tree in which their blobs are as before
    have hgo : ∀ tree₁ consumed₁, tree₁.isDirectory = tree.isDirectory →
        (∀ x, x ≠ (clone.absDst c.path).normpath → x ≠ (clone.blobPath c.blobName).normpath →
          tree₁ x = tree x) →
        tree₁.Holds (clone.absDst c.path)
          ((source c.path).take (c.startOffset + c.numBytes).toNat) →
        (∀ d ∈ rest, tree₁ (clone.blobPath d.blobName).normpath =
          tree (clone.blobPath d.blobName).normpath) → ∃ tree' taken,
        untilRaise runOperation (clone.withFiles tree₁ consumed₁) (clone.planned rest) =
          (clone.withFiles tree' (consumed₁ ++ taken), none) ∧
        clone.Applied rest tree₁ tree' taken ∧
        clone.Follows source ((c :: rest).foldl grownBy size) tree' := by
      intro tree₁ consumed₁ hdirs hothers hnew hblobs
      apply ih (hapart.of_directories hdirs) (sizes_grownBy hpaths hc) hrest _ hgoOn.2 _ howned.2
      · apply hfollows.grow hpaths hdirs hnew
        intro p hp hne
        apply hothers
        · exact fun heq => hne (hapart.files p hp _ hc heq)
        · exact hapart.notBlob p hp _ hname
      · intro d hd
        obtain ⟨content', hblob', hcontent'⟩ := hbackedRest d hd
        exact ⟨content', hblob'.of_eq hdirs (hblobs d hd), hcontent'⟩
    have hnotDst : ∀ d ∈ rest,
        (clone.blobPath d.blobName).normpath ≠ (clone.absDst c.path).normpath :=
      fun d hd => (hapart.notBlob _ hc _ (hrest d hd).2).symm
    have hother : ∀ d ∈ rest, d.blobName ≠ c.blobName →
        (clone.blobPath d.blobName).normpath ≠ (clone.blobPath c.blobName).normpath :=
      fun d hd hne heq => hne (hapart.blobs _ (hrest d hd).2 _ hname heq)
    rw [planned]
    cases htype : c.type with
    | create =>
      obtain ⟨tree₁, hrun, hdirs, hothers, hgone, hnew⟩ :=
        run_move hapart hc hname hblob hcontent htype
      have hlast : ∀ d ∈ rest, d.blobName ≠ c.blobName := fun d hd heq =>
        howned.1 d hd (Or.inl htype) heq.symm
      obtain ⟨tree', taken, hdone, happlied, hfollows'⟩ := hgo tree₁
        (consumed ++ [clone.blobPath c.blobName]) hdirs hothers hnew
        fun d hd => hothers _ (hnotDst d hd) (hother d hd (hlast d hd))
      refine ⟨tree', _, ?_, happlied.last hdirs hothers hapart hrows' hlast hgone, hfollows'⟩
      dsimp only
      rw [untilRaise_cons (runOperation_ok hrun)]
      simpa [IoOperation.consumes] using hdone
    | append =>
      obtain ⟨tree₁, hrun, hdirs, hothers, hnew⟩ :=
        run_append hapart hc hblob hcontent hfollows (hgoOn.1 htype)
      dsimp only
      rw [untilRaise_cons (runOperation_ok hrun), IoOperation.consumes, List.append_nil]
      split_ifs with hused
      · obtain ⟨tree', taken, hdone, happlied, hfollows'⟩ := hgo tree₁ consumed hdirs
          (fun x hx _ => hothers x hx) hnew fun d hd => hothers _ (hnotDst d hd)
        obtain ⟨d, hd, -, heq⟩ := clone.mem_appendBlobs.mp hused
        exact ⟨tree', taken, hdone, happlied.used hdirs (fun x hx _ => hothers x hx) ⟨d, hd, heq⟩,
          hfollows'⟩
      · have hlast : ∀ d ∈ rest, d.blobName ≠ c.blobName := by
          intro d hd heq
          cases hdtype : d.type with
          | create => exact howned.1 d hd (Or.inr hdtype) heq.symm
          | append => exact hused (clone.mem_appendBlobs.mpr ⟨d, hd, hdtype, by rw [heq]⟩)
        have hblob₁ : tree₁.Holds (clone.blobPath c.blobName) content :=
          hblob.of_eq hdirs (hothers _ (hapart.notBlob _ hc _ hname).symm)
        obtain ⟨tree₂, hrun₂, hdirs₂, hothers₂, hgone⟩ := run_delete hblob₁
        have hboth : ∀ x, x ≠ (clone.absDst c.path).normpath →
            x ≠ (clone.blobPath c.blobName).normpath → tree₂ x = tree x :=
          fun x hx hx' => (hothers₂ x hx').trans (hothers x hx)
        have hnew₂ := hnew.of_eq hdirs₂ (hothers₂ _ (hapart.notBlob _ hc _ hname))
        obtain ⟨tree', taken, hdone, happlied, hfollows'⟩ := hgo tree₂
          (consumed ++ [clone.blobPath c.blobName]) (hdirs₂.trans hdirs) hboth hnew₂
          fun d hd => hboth _ (hnotDst d hd) (hother d hd (hlast d hd))
        refine ⟨tree', _, ?_, happlied.last (hdirs₂.trans hdirs) hboth hapart hrows' hlast hgone,
          hfollows'⟩
        rw [untilRaise_cons (runOperation_ok hrun₂)]
        simpa [IoOperation.consumes] using hdone

end Clone

end NpmFollower.DatabaseExporting
