import NpmFollower.DatabaseExporting.FastForward

/-! # Blobs that a clone pulls

`git` brings the database and the new blob files. The name of a commit is a digest in hex,
so no two blobs have one path, and no blob's path goes through another's.
-/

namespace NpmFollower.DatabaseExporting

open FileTree

def hexDigits : List Char := "0123456789abcdef".toList

/-- What `hexdigest` returns for SHA-256. -/
def IsHexDigest (id : CommitId) : Prop :=
  id.toList.length = 64 ∧ id.toList.all (· ∈ hexDigits)

instance (id : CommitId) : Decidable (IsHexDigest id) :=
  inferInstanceAs (Decidable (id.toList.length = 64 ∧ id.toList.all (· ∈ hexDigits)))

/-- The database and the blob files as the remote has them. -/
def Clone.pull (clone : Clone) (db : GlobalDb) (uploads : List Upload) : Clone :=
  { clone with
    avc := { clone.avc with globalDb := db }
    tree := uploads.foldl (fun tree u => tree.put (clone.blobPath u.name) u.content) clone.tree }

/-! ## The paths of blobs -/

section BlobPaths

variable {clone : Clone} {m n : BlobName}

theorem Clone.parts_blobPath (clone : Clone) (n : BlobName) :
    (clone.blobPath n).parts = clone.repoToplevel.path.parts ++
      [".avc", "blobs", String.ofList (n.commitId.toList.take 2),
        n.commitId ++ "-blob-" ++ toString n.blobId] := by
  simp [blobPath, blobsDir, avcDir, Path.join, BlobName.path]

theorem Clone.length_blobPath (clone : Clone) (n : BlobName) :
    (clone.blobPath n).parts.length = clone.repoToplevel.path.parts.length + 4 := by
  rw [clone.parts_blobPath, List.length_append]
  rfl

theorem toList_blobFile (n : BlobName) : (n.commitId ++ "-blob-" ++ toString n.blobId).toList =
    n.commitId.toList ++ ("-blob-".toList ++ (toString n.blobId).toList) := by
  rw [String.toList_append, String.toList_append, List.append_assoc]

/-- A text that is longer than the special parts is none of them. -/
theorem plain_of_length {part : String} (h : 2 < part.toList.length) :
    part ≠ "" ∧ part ≠ "." ∧ part ≠ ".." := by
  refine ⟨?_, ?_, ?_⟩ <;>
  · rintro rfl
    simp at h

theorem Clone.plain_blobPath (clone : Clone) (h : IsHexDigest n.commitId) :
    (clone.blobPath n).Plain := by
  intro part hpart
  rw [clone.parts_blobPath, List.mem_append] at hpart
  rcases hpart with hpart | hpart
  · exact clone.repoToplevel.plain part hpart
  · obtain ⟨hlength, hdigits⟩ := h
    simp only [List.all_eq_true, decide_eq_true_eq] at hdigits
    simp only [List.mem_cons, List.not_mem_nil, or_false] at hpart
    rcases hpart with rfl | rfl | rfl | rfl
    · exact plain_of_length (by decide)
    · exact plain_of_length (by decide)
    · have htake : (String.ofList (n.commitId.toList.take 2)).toList.length = 2 := by
        rw [String.toList_ofList, List.length_take]
        omega
      refine ⟨?_, ?_, ?_⟩
      · intro heq
        rw [heq] at htake
        cases htake
      · intro heq
        rw [heq] at htake
        cases htake
      · intro heq
        have hdot : '.' ∈ n.commitId.toList.take 2 := by
          rw [← String.toList_ofList (l := n.commitId.toList.take 2), heq]
          decide
        exact absurd (hdigits _ (List.mem_of_mem_take hdot)) (by decide)
    · apply plain_of_length
      rw [toList_blobFile, List.length_append]
      omega

theorem Clone.blobPath_injective (hm : IsHexDigest m.commitId) (hn : IsHexDigest n.commitId)
    (h : clone.blobPath m = clone.blobPath n) : m = n := by
  have hparts := congrArg Path.parts h
  rw [clone.parts_blobPath, clone.parts_blobPath, List.append_cancel_left_eq] at hparts
  have hfile : m.commitId ++ "-blob-" ++ toString m.blobId =
      n.commitId ++ "-blob-" ++ toString n.blobId := by
    simpa using congrArg (fun parts => parts.getLast?) hparts
  have hlist := congrArg String.toList hfile
  rw [toList_blobFile, toList_blobFile] at hlist
  obtain ⟨hid, hrest⟩ := List.append_inj hlist (hm.1.trans hn.1.symm)
  have hnumber := List.append_cancel_left hrest
  have hblobId : m.blobId = n.blobId := Nat.repr_injective (String.toList_inj.mp hnumber)
  have hcommitId : m.commitId = n.commitId := String.toList_inj.mp hid
  cases m
  cases n
  simp_all

/-- Where blobs stand, no directory that leads to a blob does. -/
theorem Clone.not_mem_leading (hm : IsHexDigest m.commitId) (hn : IsHexDigest n.commitId) :
    (clone.blobPath m).normpath ∉ (clone.blobPath n).leading.map Path.normpath := by
  intro hmem
  obtain ⟨d, hd, heq⟩ := List.mem_map.mp hmem
  have hplain := clone.plain_blobPath hn
  rw [(hplain.of_leading hd).normpath, (clone.plain_blobPath hm).normpath] at heq
  obtain ⟨i, hi, rfl⟩ := Path.mem_leading.mp hd
  have hlength : ((clone.blobPath n).parts.take i).length = (clone.blobPath m).parts.length :=
    congrArg (fun p => p.parts.length) heq
  rw [List.length_take, clone.length_blobPath m] at hlength
  rw [clone.length_blobPath n] at hi hlength
  omega

theorem Clone.normpath_blobPath_inj (hm : IsHexDigest m.commitId) (hn : IsHexDigest n.commitId)
    (h : (clone.blobPath m).normpath = (clone.blobPath n).normpath) : m = n := by
  rw [(clone.plain_blobPath hm).normpath, (clone.plain_blobPath hn).normpath] at h
  exact clone.blobPath_injective hm hn h

end BlobPaths

/-! ## What is pulled -/

section Pull

variable {clone : Clone} {db : GlobalDb} {uploads : List Upload} {p : Path}

theorem Clone.pull_snoc (u : Upload) : (clone.pull db (uploads ++ [u])).tree =
    (clone.pull db uploads).tree.put (clone.blobPath u.name) u.content := by
  simp [pull, List.foldl_append]

/-- What a pull does not bring is as before, unless it has become a directory. -/
theorem Clone.pull_other (hblobs : ∀ u ∈ uploads, p ≠ (clone.blobPath u.name).normpath)
    (hdirectory : (clone.pull db uploads).tree.isDirectory p = false) :
    (clone.pull db uploads).tree p = clone.tree p := by
  induction uploads using List.reverseRecOn with
  | nil => rfl
  | append_singleton uploads u ih =>
    rw [List.forall_mem_append] at hblobs
    have hu : p ≠ (clone.blobPath u.name).normpath := hblobs.2 u (List.mem_singleton_self u)
    rw [pull_snoc] at hdirectory ⊢
    rw [put_other hu hdirectory]
    apply ih hblobs.1
    by_contra hold
    rw [put_directory hu (by simpa using hold)] at hdirectory
    cases hdirectory

theorem Clone.pull_apart (hblobs : ∀ u ∈ uploads, p ≠ (clone.blobPath u.name).normpath)
    (hleading : ∀ u ∈ uploads, p ∉ (clone.blobPath u.name).leading.map Path.normpath) :
    (clone.pull db uploads).tree p = clone.tree p := by
  induction uploads using List.reverseRecOn with
  | nil => rfl
  | append_singleton uploads u ih =>
    rw [List.forall_mem_append] at hblobs hleading
    have hu := hleading.2 u (List.mem_singleton_self u)
    rw [pull_snoc, put, if_neg (hblobs.2 u (List.mem_singleton_self u)), if_neg fun h => hu h.1]
    exact ih hblobs.1 hleading.1

/-- Every pulled blob is in its place. -/
theorem Clone.pull_holds (hdigests : ∀ u ∈ uploads, IsHexDigest u.name.commitId)
    (hnodup : (uploads.map Upload.name).Nodup) : ∀ u ∈ uploads,
    (clone.pull db uploads).tree.Holds (clone.blobPath u.name) u.content := by
  induction uploads using List.reverseRecOn with
  | nil => exact fun u hu => absurd hu List.not_mem_nil
  | append_singleton uploads v ih =>
    rw [List.forall_mem_append] at hdigests
    have hv : IsHexDigest v.name.commitId := hdigests.2 v (List.mem_singleton_self v)
    rw [List.map_append, List.nodup_append] at hnodup
    rw [List.forall_mem_append]
    constructor
    · intro u hu
      have hu' := hdigests.1 u hu
      have hne : u.name ≠ v.name :=
        hnodup.2.2 _ (List.mem_map_of_mem hu) _ (List.mem_map_of_mem (List.mem_singleton_self v))
      obtain ⟨hreached, hfile⟩ := ih hdigests.1 hnodup.1 u hu
      rw [pull_snoc]
      constructor
      · rw [blocked_eq_none_iff] at hreached ⊢
        intro d hd
        apply put_directory _ (hreached d hd)
        intro heq
        apply clone.not_mem_leading hv hu'
        rw [← heq]
        exact List.mem_map_of_mem hd
      · rw [put, if_neg fun heq => hne (clone.normpath_blobPath_inj hu' hv heq),
          if_neg fun h => clone.not_mem_leading hu' hv h.1]
        exact hfile
    · intro u hu
      rw [List.mem_singleton.mp hu, pull_snoc]
      exact put_self (clone.plain_blobPath hv)

end Pull

end NpmFollower.DatabaseExporting
