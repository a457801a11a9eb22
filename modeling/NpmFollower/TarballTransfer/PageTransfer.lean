import NpmFollower.TarballTransfer.Transfer

/-! # One page of a transfer worker

`spawn_transfer_worker` copies the files of a page to the cluster and submits
them to the blob store. A file that exists is taken off the list; any other error
begins the page again.
-/

namespace NpmFollower.TarballTransfer

open PostgresDb

/-- The keys in the blob store, and the files in the worker's directory on the cluster. -/
structure Cluster where
  stored : List String
  remote : List String
  deriving DecidableEq, Repr

inductive ClientAnswer where
  | message
  | alreadyExists (key : String)
  | ioError
  deriving DecidableEq, Repr

namespace Cluster

/-- `remove_file` for one file after the other; a second removal of a file is an error. -/
def removeFiles : Cluster → List String → ClientAnswer × Cluster
  | c, [] => (.message, c)
  | c, file :: files =>
    if file ∈ c.remote then
      removeFiles { c with remote := c.remote.filter (· ≠ file) } files
    else (.ioError, c)

/-- `store_from_local` for files of the worker's directory, by their names. The store answers with
the first key that it has. -/
def storeFromLocal (c : Cluster) (files : List String) : ClientAnswer × Cluster :=
  -- an empty list is split into one path, which is empty and cannot be opened
  if files = [] ∨ ∃ file ∈ files, file ∉ c.remote then (.ioError, c)
  else
    match files.eraseDups.find? (· ∈ c.stored) with
    | some key => (.alreadyExists key, c)
    | none => removeFiles { c with stored := c.stored ++ files.eraseDups } files

end Cluster

inductive PagePhase where
  /-- At the top of `'o`, with the page that was received. -/
  | pass
  | submit (filepaths : List String)
  | done
  deriving DecidableEq, Repr

/-- A worker with a page, and the lists of files it has submitted. -/
structure PageWorker where
  cluster : Cluster
  phase : PagePhase
  submissions : List (List String)
  deriving DecidableEq, Repr

section Step

variable (rsync : List String → Bool) (page : List DownloadedTarball)

/-- The file names of the page, as often as tarballs have them. -/
def pageFiles : List String := (processedTarballs page).map (·.2)

namespace PageWorker

variable (w : PageWorker)

/-- The page up to the end of `rsync`, which copies each name once. -/
def pass : PageWorker :=
  let files := pageFiles page
  if rsync files.eraseDups then
    { w with
      cluster := { w.cluster with remote := w.cluster.remote ++ files.eraseDups }
      phase := .submit files }
  else w

def answered (filepaths : List String) : ClientAnswer → PagePhase
  | .message => .done
  | .alreadyExists file =>
    if filepaths.length = 1 then .done else .submit (filepaths.filter (· ≠ file))
  | .ioError => .pass

def submit (filepaths : List String) : PageWorker :=
  { cluster := (w.cluster.storeFromLocal filepaths).2
    phase := answered filepaths (w.cluster.storeFromLocal filepaths).1
    submissions := w.submissions ++ [filepaths] }

def step : PageWorker :=
  match w.phase with
  | .pass => w.pass rsync page
  | .submit filepaths => w.submit filepaths
  | .done => w

end PageWorker

/-- The page ends after finitely many steps, no list that was submitted is empty, and every
tarball with a file is stored under its name. -/
def PageWorker.Handles (w : PageWorker) : Prop :=
  ∃ n, ((PageWorker.step rsync page)^[n] w).phase = .done ∧
    [] ∉ ((PageWorker.step rsync page)^[n] w).submissions ∧
    ∀ t ∈ page, ∀ name, t.tgzLocalPath.bind fileName = some name →
      name ∈ ((PageWorker.step rsync page)^[n] w).cluster.stored

end Step

/-- The name that comes last among the first occurrences occurs once. -/
def EndsSingle (files : List String) : Prop :=
  ∃ name, files.eraseDups.getLast? = some name ∧ files.count name = 1

instance (files : List String) : Decidable (EndsSingle files) :=
  match h : files.eraseDups.getLast? with
  | none => isFalse (by simp [EndsSingle, h])
  | some name => decidable_of_iff (files.count name = 1) (by simp [EndsSingle, h])

/-- There are files, and either some of them are not stored, none of these twice, or the name
that comes last among the first occurrences occurs once. -/
def Transferable (stored files : List String) : Prop :=
  files ≠ [] ∧ ((∃ file ∈ files, file ∉ stored) ∧ (files.filter (· ∉ stored)).Nodup ∨
    EndsSingle files)

/-! ## Answers -/

section Answers

variable {c : Cluster} {files : List String}

theorem removeFiles_stored : (c.removeFiles files).2.stored = c.stored := by
  induction files generalizing c with
  | nil => rfl
  | cons file files ih =>
    rw [Cluster.removeFiles]
    split_ifs
    · exact ih
    · rfl

/-- Files are removed without an error just when they are there and all different. -/
theorem removeFiles_answer :
    (c.removeFiles files).1 =
      if files.Nodup ∧ ∀ file ∈ files, file ∈ c.remote then .message else .ioError := by
  induction files generalizing c with
  | nil => simp [Cluster.removeFiles]
  | cons file files ih =>
    rw [Cluster.removeFiles]
    by_cases hfile : file ∈ c.remote
    · rw [if_pos hfile, ih]
      congr 1
      simp only [List.nodup_cons, List.forall_mem_cons, hfile, true_and, List.mem_filter,
        decide_eq_true_iff, eq_iff_iff]
      constructor
      · rintro ⟨hnodup, hall⟩
        exact ⟨⟨fun hmem => (hall file hmem).2 rfl, hnodup⟩, fun f hf => (hall f hf).1⟩
      · rintro ⟨⟨hnot, hnodup⟩, hall⟩
        exact ⟨hnodup, fun f hf => ⟨hall f hf, fun heq => hnot (heq ▸ hf)⟩⟩
    · rw [if_neg hfile, if_neg]
      rintro ⟨-, hall⟩
      exact hfile (hall file List.mem_cons_self)

theorem storeFromLocal_exists (hremote : ∀ file ∈ files, file ∈ c.remote) {key : String}
    (hfind : files.eraseDups.find? (· ∈ c.stored) = some key) :
    c.storeFromLocal files = (.alreadyExists key, c) := by
  have hmem := List.mem_eraseDups.mp (List.mem_of_find?_eq_some hfind)
  rw [Cluster.storeFromLocal, if_neg, hfind]
  rintro (hnil | ⟨file, hfile, hnot⟩)
  · rw [hnil] at hmem
    exact List.not_mem_nil hmem
  · exact hnot (hremote file hfile)

theorem storeFromLocal_new (hne : files ≠ []) (hremote : ∀ file ∈ files, file ∈ c.remote)
    (hnew : ∀ file ∈ files, file ∉ c.stored) :
    c.storeFromLocal files =
      ({ c with stored := c.stored ++ files.eraseDups } : Cluster).removeFiles files := by
  have hfind : files.eraseDups.find? (· ∈ c.stored) = none := by
    rw [List.find?_eq_none]
    intro file hfile
    simpa using hnew file (List.mem_eraseDups.mp hfile)
  rw [Cluster.storeFromLocal, if_neg, hfind]
  rintro (hnil | ⟨file, hfile, hnot⟩)
  · exact hne hnil
  · exact hnot (hremote file hfile)

end Answers

end NpmFollower.TarballTransfer
