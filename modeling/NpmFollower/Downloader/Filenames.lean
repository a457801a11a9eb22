import NpmFollower.PostgresDb.DownloadTarball
import NpmFollower.TarballTransfer.Transfer

/-! # File names of tarballs

The name of a downloaded file joins the scope, the name and the version of a
tarball with hyphens, which each of them may contain. Two tarballs share a name
when they consist of the same segments between hyphens, cut in different places.
-/

namespace NpmFollower.Downloader

open PostgresDb

/-- A tarball of the registry by the parts of its URL. -/
structure RegistryTarball where
  scope : Option String
  name : String
  version : String
  scope_noSlash : ∀ s ∈ scope, '/' ∉ s.toList
  name_noSlash : '/' ∉ name.toList
  version_noSlash : '/' ∉ version.toList

namespace RegistryTarball

variable (a b : RegistryTarball)

/-- The file at the end of the URL. -/
def baseName : String := a.name ++ "-" ++ a.version ++ ".tgz"

/-- Where the registry serves its tarballs. -/
def registry : String := "https://registry.npmjs.org/"

def url : String :=
  registry ++
    (match a.scope with
      | none => ""
      | some s => "@" ++ s ++ "/") ++ a.name ++ "/-/" ++ a.baseName

/-- `Path::new(dest).join(name)`, where a tarball is downloaded to. -/
def downloadPath (dest : String) : Option String :=
  (DownloadTask.getFilename a.url).toOption.map fun filename => dest ++ "/" ++ filename

/-- The key under which the transfer stores the downloaded file. -/
def storageKey (dest : String) : Option String :=
  (a.downloadPath dest).bind TarballTransfer.fileName

/-- Two tarballs that share neither a file name, nor a local path, nor a key. -/
def Apart : Prop :=
  DownloadTask.getFilename a.url ≠ DownloadTask.getFilename b.url ∧
    ∀ dest, a.downloadPath dest ≠ b.downloadPath dest ∧ a.storageKey dest ≠ b.storageKey dest

/-- What stands between the hyphens of the scope, the name and the version, in one list. -/
def segments : List (List Char) :=
  (match a.scope with
    | none => []
    | some s => ('@' :: s.toList).splitOn '-') ++
    a.name.toList.splitOn '-' ++ a.version.toList.splitOn '-'

/-- The name of the file without its ending. -/
def stem : List Char :=
  (match a.scope with
    | none => []
    | some s => ('@' :: s.toList) ++ ['-']) ++ a.name.toList ++ '-' :: a.version.toList

theorem splitOn_stem : a.stem.splitOn '-' = a.segments := by
  obtain ⟨scope, name, version, -, -, -⟩ := a
  cases scope with
  | none =>
    simp only [stem, segments, List.nil_append]
    exact List.splitOn_append_cons_self _ _
  | some s =>
    simp only [stem, segments]
    rw [List.append_assoc, List.append_assoc, List.singleton_append,
      List.splitOn_append_cons_self, List.splitOn_append_cons_self, List.append_assoc]

variable {a b}

theorem segments_eq_iff : a.segments = b.segments ↔ a.stem = b.stem := by
  rw [← splitOn_stem, ← splitOn_stem]
  constructor
  · intro h
    have hjoin := congrArg (List.intercalate ['-']) h
    rwa [List.intercalate_splitOn, List.intercalate_splitOn] at hjoin
  · intro h
    rw [h]

theorem slash_not_mem_baseName : '/' ∉ a.baseName.toList := by
  have hname := a.name_noSlash
  have hversion := a.version_noSlash
  simp [baseName, hname, hversion]

theorem registry_toList : registry.toList =
    "https:".toList ++ '/' :: ([] ++ '/' :: ("registry.npmjs.org".toList ++ '/' :: [])) := by
  decide

/-- The pieces of the URL between slashes. -/
theorem splitOn_url : a.url.toList.splitOn '/' =
    ["https:".toList, [], "registry.npmjs.org".toList] ++
      (match a.scope with
        | none => []
        | some s => ['@' :: s.toList]) ++ [a.name.toList, ['-'], a.baseName.toList] := by
  have hbase := a.slash_not_mem_baseName
  have hname := a.name_noSlash
  have hpath : (a.name.toList ++ '/' :: ('-' :: '/' :: a.baseName.toList)).splitOn '/' =
      [a.name.toList, ['-'], a.baseName.toList] := by
    rw [List.splitOn_append_cons_self_of_not_mem hname]
    rw [← List.singleton_append (l := '/' :: a.baseName.toList),
      List.splitOn_append_cons_self_of_not_mem (by decide), List.splitOn_eq_singleton hbase]
  have hhost : ∀ rest : List Char, (registry.toList ++ rest).splitOn '/' =
      ["https:".toList, [], "registry.npmjs.org".toList] ++ rest.splitOn '/' := by
    intro rest
    have hscheme : '/' ∉ "https:".toList := by simp
    have hdomain : '/' ∉ "registry.npmjs.org".toList := by simp
    rw [registry_toList]
    simp only [List.append_assoc, List.cons_append, List.nil_append]
    rw [List.splitOn_append_cons_self_of_not_mem hscheme,
      ← List.nil_append ('/' :: ("registry.npmjs.org".toList ++ '/' :: rest)),
      List.splitOn_append_cons_self_of_not_mem List.not_mem_nil,
      List.splitOn_append_cons_self_of_not_mem hdomain]
  have hdash : "/-/".toList = ['/', '-', '/'] := by decide
  cases hscope : a.scope with
  | none =>
    have hurl : a.url.toList = registry.toList ++
        (a.name.toList ++ '/' :: ('-' :: '/' :: a.baseName.toList)) := by
      simp [url, hscope, hdash]
    rw [hurl, hhost, hpath, List.append_nil]
  | some s =>
    have hs : '/' ∉ '@' :: s.toList := by
      simpa using a.scope_noSlash s hscope
    have hurl : a.url.toList = registry.toList ++ (('@' :: s.toList) ++
        '/' :: (a.name.toList ++ '/' :: ('-' :: '/' :: a.baseName.toList))) := by
      simp [url, hscope, hdash]
    rw [hurl, hhost, List.splitOn_append_cons_self_of_not_mem hs, hpath]
    simp

/-- The file name of a tarball is its stem with the ending. -/
def filename (a : RegistryTarball) : String := String.ofList a.stem ++ ".tgz"

theorem getFilename_url : DownloadTask.getFilename a.url = .ok a.filename := by
  cases hscope : a.scope with
  | none =>
    have hsplit := a.splitOn_url
    rw [hscope] at hsplit
    simp only [DownloadTask.getFilename, DownloadTask.urlDepth, hsplit]
    simp [DownloadTask.asI16, filename, stem, hscope, baseName, String.ext_iff]
  | some s =>
    have hsplit := a.splitOn_url
    rw [hscope] at hsplit
    simp only [DownloadTask.getFilename, DownloadTask.urlDepth, hsplit]
    simp [DownloadTask.asI16, filename, stem, hscope, baseName, String.ext_iff]

theorem filename_eq_iff : a.filename = b.filename ↔ a.segments = b.segments := by
  rw [segments_eq_iff, filename, filename]
  simp [String.ext_iff]

theorem downloadPath_eq (dest : String) :
    a.downloadPath dest = some (dest ++ "/" ++ a.filename) := by
  rw [downloadPath, getFilename_url]
  rfl

theorem slash_not_mem_filename : '/' ∉ a.filename.toList := by
  have hname := a.name_noSlash
  have hversion := a.version_noSlash
  cases hscope : a.scope with
  | none => simp [filename, stem, hscope, hname, hversion]
  | some s =>
    have hs := a.scope_noSlash s hscope
    simp [filename, stem, hscope, hname, hversion, hs]

/-- The key of a transferred tarball is its file name, wherever it was downloaded to. -/
theorem storageKey_eq (dest : String) : a.storageKey dest = some a.filename := by
  have hsplit : (dest ++ "/" ++ a.filename).toList.splitOn '/' =
      dest.toList.splitOn '/' ++ [a.filename.toList] := by
    have hlist : (dest ++ "/" ++ a.filename).toList = dest.toList ++ '/' :: a.filename.toList := by
      simp
    rw [hlist, List.splitOn_append_cons_self, List.splitOn_eq_singleton a.slash_not_mem_filename]
  have hlength : 4 ≤ a.filename.toList.length := by
    simp [filename]
  have hne : a.filename.toList ≠ [] ∧ a.filename.toList ≠ ['.'] := by
    constructor <;> intro h <;> rw [h] at hlength <;> simp at hlength
  have hdots : a.filename.toList ≠ ['.', '.'] := by
    intro h
    rw [h] at hlength
    simp at hlength
  have hkept : decide (a.filename.toList ≠ [] ∧ a.filename.toList ≠ ['.']) = true :=
    decide_eq_true hne
  rw [storageKey, downloadPath_eq, Option.bind_some, TarballTransfer.fileName, hsplit,
    List.filter_append, List.filter_singleton, hkept, cond_true, List.getLast?_concat]
  simp [hdots]

/-- Two tarballs are kept apart exactly when they differ in their segments. -/
theorem apart_iff (a b : RegistryTarball) : a.Apart b ↔ a.segments ≠ b.segments := by
  rw [Apart, getFilename_url, getFilename_url]
  simp only [downloadPath_eq, storageKey_eq]
  have hnames : a.segments ≠ b.segments ↔ a.filename ≠ b.filename :=
    not_congr filename_eq_iff.symm
  rw [hnames]
  constructor
  · rintro ⟨hne, -⟩ heq
    exact hne (congrArg Except.ok heq)
  · intro hne
    refine ⟨fun h => hne (Except.ok.inj h), fun dest => ⟨fun h => ?_, fun h => ?_⟩⟩
    · have hpath := Option.some.inj h
      rw [String.ext_iff] at hpath
      simp only [String.toList_append, List.append_cancel_left_eq] at hpath
      exact hne (String.ext_iff.mpr hpath)
    · exact hne (Option.some.inj h)

/-- A hyphen in the scope of one package and in the name of another. -/
theorem not_apart_hyphenated : ∃ a b : RegistryTarball,
    (a.scope, a.name, a.version) ≠ (b.scope, b.name, b.version) ∧ ¬a.Apart b := by
  refine ⟨⟨some "a-b", "c", "1.0.0", by decide, by decide, by decide⟩,
    ⟨some "a", "b-c", "1.0.0", by decide, by decide, by decide⟩, by decide, ?_⟩
  rw [apart_iff, not_not]
  decide

end RegistryTarball

end NpmFollower.Downloader
