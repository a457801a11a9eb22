import NpmFollower.DatabaseExporting.Clone

/-! # The files of a clone

What the operations of a plan do to a tree of files. They replace files by files, so the
directories stay as they are, and a path that can be reached stays so.
-/

namespace NpmFollower.DatabaseExporting

/-! ## Plain paths -/

namespace Path

variable {path : Path}

theorem normparts_plain {absolute : Bool} {kept parts : List String}
    (h : ∀ part ∈ parts, part ≠ "" ∧ part ≠ "." ∧ part ≠ "..") :
    normparts absolute kept parts = kept.reverse ++ parts := by
  induction parts generalizing kept with
  | nil => simp [normparts]
  | cons part parts ih =>
    rw [List.forall_mem_cons] at h
    obtain ⟨⟨hempty, hdot, hup⟩, hrest⟩ := h
    rw [normparts, if_neg (by simp [hempty, hdot]), if_pos (Or.inl hup), ih hrest]
    simp

theorem Plain.normpath (h : path.Plain) : path.normpath = path := by
  rw [Path.normpath, normparts_plain h]
  rfl

theorem mem_leading {d : Path} :
    d ∈ path.leading ↔ ∃ i < path.parts.length, d = ⟨path.absolute, path.parts.take i⟩ := by
  simp [leading, eq_comm]

theorem Plain.of_leading (h : path.Plain) {d : Path} (hd : d ∈ path.leading) : d.Plain := by
  obtain ⟨i, -, rfl⟩ := mem_leading.mp hd
  intro part hpart
  exact h part (List.mem_of_mem_take hpart)

theorem ne_of_mem_leading {d : Path} (hd : d ∈ path.leading) : d ≠ path := by
  obtain ⟨i, hi, rfl⟩ := mem_leading.mp hd
  intro heq
  have hparts : (path.parts.take i).length = path.parts.length :=
    congrArg (fun p => p.parts.length) heq
  rw [List.length_take] at hparts
  omega

end Path

namespace FileTree

variable {tree tree' : FileTree} {path : Path} {content : Bytes} {node : Option Node}

/-- The path can be reached and is a file. -/
structure Holds (tree : FileTree) (path : Path) (content : Bytes) : Prop where
  reached : tree.blocked path = none
  file : tree path.normpath = some (.file content)

theorem blocked_eq_none_iff :
    tree.blocked path = none ↔ ∀ d ∈ path.leading, tree.isDirectory d.normpath := by
  rw [blocked, List.findSome?_eq_none_iff]
  apply forall₂_congr
  intro d _
  rw [isDirectory]
  cases tree d.normpath with
  | none => simp
  | some node => cases node <;> simp [Node.isDirectory]

theorem blocked_of_directories (hdirs : tree'.isDirectory = tree.isDirectory)
    (h : tree.blocked path = none) : tree'.blocked path = none := by
  rw [blocked_eq_none_iff] at h ⊢
  rwa [hdirs]

namespace Holds

variable (h : tree.Holds path content)
include h

theorem get : tree.get path = .ok (.file content) := by
  rw [FileTree.get, h.reached, h.file]

theorem getsize : tree.getsize path = .ok content.length := by
  rw [FileTree.getsize, h.get]
  rfl

theorem read : tree.read path = .ok content := by
  rw [FileTree.read, h.get]

theorem not_directory : tree.isDirectory path.normpath = false := by
  rw [isDirectory, h.file]
  rfl

theorem of_eq (hdirs : tree'.isDirectory = tree.isDirectory)
    (hsame : tree' path.normpath = tree path.normpath) : tree'.Holds path content :=
  ⟨blocked_of_directories hdirs h.reached, hsame.trans h.file⟩

theorem content_eq {content' : Bytes} (h' : tree.Holds path content') : content' = content := by
  have hfile := h'.file
  rw [h.file] at hfile
  cases hfile
  rfl

end Holds

/-- Where no directory stands and none is put, the directories stay. -/
theorem isDirectory_update {p : Path} (hold : tree.isDirectory p = false)
    (hnew : node.any Node.isDirectory = false) :
    isDirectory (Function.update tree p node) = tree.isDirectory := by
  funext q
  by_cases hq : q = p
  · subst hq
    rw [hold, isDirectory, Function.update_self, hnew]
  · rw [isDirectory, Function.update_of_ne hq, isDirectory]

theorem holds_update {content' : Bytes} (hreached : tree.blocked path = none)
    (hold : tree.isDirectory path.normpath = false) :
    Holds (Function.update tree path.normpath (some (.file content'))) path content' :=
  ⟨blocked_of_directories (isDirectory_update hold rfl) hreached, Function.update_self ..⟩

theorem rename_ok {src dst : Path} (hsrc : tree.Holds src content)
    (hreached : tree.blocked dst = none) (hdst : tree.isDirectory dst.normpath = false) :
    tree.rename src dst = .ok (Function.update (Function.update tree src.normpath none)
      dst.normpath (some (.file content))) := by
  rw [rename, hsrc.read]
  simp [bind, Except.bind, hreached, hdst]

theorem remove_ok (h : tree.Holds path content) :
    tree.remove path = .ok (Function.update tree path.normpath none) := by
  rw [remove, h.read]
  rfl

theorem appendBytes_ok {src dst : Path} {srcOffset numBytes dstOffset : ℤ} {old : Bytes}
    (hsrc : tree.Holds src content) (hdst : tree.Holds dst old) (hoffset : 0 ≤ srcOffset)
    (hend : dstOffset = old.length)
    (hdata : (((content.drop srcOffset.toNat).take numBytes.toNat).length : ℤ) = numBytes) :
    tree.appendBytes src srcOffset numBytes dst dstOffset =
      .ok (Function.update tree dst.normpath
        (some (.file (old ++ (content.drop srcOffset.toNat).take numBytes.toNat)))) := by
  rw [appendBytes, hdst.getsize, hsrc.read, hdst.read]
  simp only [bind, Except.bind]
  rw [if_neg (not_not.mpr hend), if_neg (not_lt.mpr hoffset), if_neg (not_not.mpr hdata)]
  rfl

/-! ## Files that are brought -/

theorem put_self (h : path.Plain) : (tree.put path content).Holds path content := by
  constructor
  · rw [blocked_eq_none_iff]
    intro d hd
    have hplain := h.of_leading hd
    have hne : d.normpath ≠ path.normpath := by
      rw [hplain.normpath, h.normpath]
      exact Path.ne_of_mem_leading hd
    have hmem : d.normpath ∈ path.leading.map Path.normpath := List.mem_map_of_mem hd
    rw [isDirectory, put, if_neg hne]
    by_cases hdirectory : tree.isDirectory d.normpath
    · rw [if_neg (by simp [hdirectory])]
      exact hdirectory
    · rw [if_pos ⟨hmem, by simpa using hdirectory⟩]
      rfl
  · rw [put, if_pos rfl]

/-- Where no directory stands afterwards, nothing else was brought. -/
theorem put_other {p : Path} (hfile : p ≠ path.normpath)
    (hdirectory : (tree.put path content).isDirectory p = false) :
    tree.put path content p = tree p := by
  rw [isDirectory, put, if_neg hfile] at hdirectory
  rw [put, if_neg hfile]
  split_ifs at hdirectory ⊢ with hmade
  · cases hdirectory
  · rfl

/-- What is brought takes no directory away, unless the file replaces it. -/
theorem put_directory {p : Path} (hfile : p ≠ path.normpath) (h : tree.isDirectory p) :
    (tree.put path content).isDirectory p := by
  rw [isDirectory, put, if_neg hfile, if_neg (by simp [h])]
  exact h

end FileTree

end NpmFollower.DatabaseExporting
