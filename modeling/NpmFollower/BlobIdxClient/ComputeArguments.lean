import NpmFollower.Library.Separators

/-! # The arguments of compute jobs

The server puts the keys of a job into one argument of a command, and the client
splits the argument again. Neither side escapes a separator in a key, and there is
no argument that stands for no keys.
-/

namespace NpmFollower.BlobIdxClient

open Separators

/-- `str::split` at a character. -/
def splitAt (sep : Char) (s : String) : List String := (s.toList.splitOn sep).map String.ofList

/-- The argument of `submit_compute` for one chunk. -/
def submitCompute (chunk : List String) : String := " ".intercalate chunk

/-- The argument of `submit_compute_multi` for one chunk. -/
def submitComputeMulti (chunk : List (List String)) : String :=
  " ".intercalate (chunk.map fun sub => "&".intercalate sub)

/-- The keys in `compute_run_bin`, from `args[3]`. -/
def computeRunBin (tarballUrlKeys : String) : List String := splitAt ' ' tarballUrlKeys

/-- The keys in `compute_run_bin_multi`, from `args[3]`. -/
def computeRunBinMulti (tarballUrlKeys : String) : List (List String) :=
  (splitAt ' ' tarballUrlKeys).map (splitAt '&')

theorem map_toList_injective : Function.Injective (List.map String.toList) :=
  List.map_injective_iff.mpr fun _ _ h => String.toList_injective h

theorem toList_splitAt (sep : Char) (s : String) :
    (splitAt sep s).map String.toList = s.toList.splitOn sep := by
  simp [splitAt, Function.comp_def]

/-- Splitting the argument gives its keys again when there are keys, and no blank in one. -/
theorem splitAt_intercalate_iff {keys : List String} :
    splitAt ' ' (" ".intercalate keys) = keys ↔ keys ≠ [] ∧ ∀ key ∈ keys, ' ' ∉ key.toList := by
  rw [← map_toList_injective.eq_iff, toList_splitAt, String.toList_intercalate]
  change ([' '].intercalate _).splitOn ' ' = _ ↔ _
  rw [splitOn_intercalate_iff]
  simp

theorem toList_computeRunBinMulti (chunk : List (List String)) :
    (computeRunBinMulti (submitComputeMulti chunk)).map (List.map String.toList) =
      (([' '].intercalate ((chunk.map (List.map String.toList)).map ['&'].intercalate)).splitOn
        ' ').map (List.splitOn '&') := by
  have htext : (submitComputeMulti chunk).toList =
      [' '].intercalate ((chunk.map (List.map String.toList)).map ['&'].intercalate) := by
    rw [submitComputeMulti, String.toList_intercalate, List.map_map, List.map_map]
    congr 1
    apply List.map_congr_left
    intro group _
    exact String.toList_intercalate
  calc (computeRunBinMulti (submitComputeMulti chunk)).map (List.map String.toList)
      = (splitAt ' ' (submitComputeMulti chunk)).map fun group => group.toList.splitOn '&' := by
        rw [computeRunBinMulti, List.map_map]
        apply List.map_congr_left
        intro group _
        exact toList_splitAt '&' group
    _ = ((splitAt ' ' (submitComputeMulti chunk)).map String.toList).map (List.splitOn '&') := by
        rw [List.map_map]
        rfl
    _ = _ := by
        rw [toList_splitAt, htext]

/-- The groups and the keys come back just when no list is empty and no key has one of its
separators in it. -/
theorem computeArguments_iff :
    (∀ chunk : List (List String), computeRunBinMulti (submitComputeMulti chunk) = chunk ↔
      chunk ≠ [] ∧ ∀ group ∈ chunk, group ≠ [] ∧
        ∀ key ∈ group, ' ' ∉ key.toList ∧ '&' ∉ key.toList) ∧
    ∀ chunk : List String, computeRunBin (submitCompute chunk) = chunk ↔
      chunk ≠ [] ∧ ∀ key ∈ chunk, ' ' ∉ key.toList := by
  constructor
  · intro chunk
    rw [← (List.map_injective_iff.mpr map_toList_injective).eq_iff, toList_computeRunBinMulti,
      splitOn_splitOn_intercalate_iff (by decide)]
    simp
  · intro chunk
    exact splitAt_intercalate_iff

/-- An ampersand in a key, and no key at all. -/
theorem not_computeArguments :
    computeRunBinMulti (submitComputeMulti [["a?b=1&c=2"]]) ≠ [["a?b=1&c=2"]] ∧
    computeRunBinMulti (submitComputeMulti [["a b"]]) ≠ [["a b"]] ∧
    computeRunBinMulti (submitComputeMulti []) ≠ [] ∧
    computeRunBin (submitCompute ["a b"]) ≠ ["a b"] ∧ computeRunBin (submitCompute []) ≠ [] := by
  decide +kernel

end NpmFollower.BlobIdxClient
