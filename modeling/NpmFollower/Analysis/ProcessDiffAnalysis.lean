import NpmFollower.Library.Runs
import NpmFollower.PostgresDb.DiffAnalysis

/-! # Tables made from the computed diffs

Four programs read `diff_analysis` page by page and write what they find to a table
of their own. Three of them write a row for each diff and skip the rows they find
already written; the fourth adds up how many files have which extension.
-/

namespace NpmFollower.Analysis

open Std PostgresDb

/-- The loop over the pages of the table. It stops after so many pages, when the writer fails, or
at an empty page, which is its end. -/
def processDiffAnalysis {σ : Type} (table : List DiffAnalysis) (chunkSize : ℤ)
    (writer : List DiffAnalysis → σ → Option σ) : ℕ → Option (ℤ × ℤ) → σ → σ × Bool
  | 0, _, s => (s, false)
  | pages + 1, last, s =>
    match DiffAnalysis.queryTable (some chunkSize) last table with
    | none => (s, false)
    | some diffs =>
      match diffs.getLast? with
      | none => (s, true)
      | some d =>
        match writer diffs s with
        | none => (s, false)
        | some s' => processDiffAnalysis table chunkSize writer pages (some d.pair) s'

/-- What stands behind the last dot. -/
def getExtension (path : String) : Option String :=
  let split := (path.toList.splitOn '.').map String.ofList
  if split.length > 1 then split.getLast? else none

/-! ## A row for each diff -/

/-- The rows of the diffs, without those whose key the table has. -/
def insertRows {ρ : Type} (row : DiffAnalysis → Option ρ) (key : ρ → ℤ × ℤ)
    (diffs : List DiffAnalysis) (table : List ρ) : Option (List ρ) :=
  let rows := diffs.filterMap row
  if rows.isEmpty then some table else some (rows.foldl (Rows.insertMissing key) table)

structure ChangedFile where
  fromId : ℤ
  toId : ℤ
  didChangeTypes : Bool
  didChangeCode : Bool
deriving DecidableEq

structure NumLines where
  fromId : ℤ
  toId : ℤ
  numLinesAdded : ℤ
  numLinesDeleted : ℤ
deriving DecidableEq

structure NumFiles where
  fromId : ℤ
  toId : ℤ
  numFilesAdded : ℤ
  numFilesModified : ℤ
  numFilesDeleted : ℤ
deriving DecidableEq

def touched (diff : FileDiff) : Bool := diff.added > 0 || diff.removed > 0

def isTypes (path : String) : Bool :=
  ".d.ts".toList.isSuffixOf path.toList || ".d.tsx".toList.isSuffixOf path.toList

def isCode (ext : String) : Bool := ext = "js" || ext = "jsx" || ext = "ts" || ext = "tsx"

/-- The loop over the files of a diff, which ends early once both flags are set. -/
def changedFlags : List (String × FileDiff) → Bool → Bool → Bool × Bool
  | [], didChangeTypes, didChangeCode => (didChangeTypes, didChangeCode)
  | (path, diff) :: files, didChangeTypes, didChangeCode =>
    match getExtension path with
    | none => changedFlags files didChangeTypes didChangeCode
    | some ext =>
      let flags :=
        if isTypes path && touched diff then (true, didChangeCode)
        else if isCode ext && touched diff then (didChangeTypes, true)
        else (didChangeTypes, didChangeCode)
      if flags.1 && flags.2 then flags else changedFlags files flags.1 flags.2

def changedFileOf (diff : DiffAnalysis) : Option ChangedFile :=
  match diff.jobResult with
  | .diff files =>
    let (didChangeTypes, didChangeCode) := changedFlags files.toList false false
    some { fromId := diff.fromId, toId := diff.toId, didChangeTypes, didChangeCode }
  | _ => none

def numLinesOf (diff : DiffAnalysis) : Option NumLines :=
  match diff.jobResult with
  | .diff files => some {
      fromId := diff.fromId
      toId := diff.toId
      numLinesAdded := files.toList.foldl (fun n file => n + file.2.added) 0
      numLinesDeleted := files.toList.foldl (fun n file => n + file.2.removed) 0 }
  | _ => none

/-- One file counted as modified, deleted or added, or as none of them. -/
def countFile (n : NumFiles) (diff : FileDiff) : NumFiles :=
  if diff.totalOld.isSome && diff.totalNew.isSome && diff.added > 0 && diff.removed > 0 then
    { n with numFilesModified := n.numFilesModified + 1 }
  else if diff.totalNew.isNone then { n with numFilesDeleted := n.numFilesDeleted + 1 }
  else if diff.totalOld.isNone then { n with numFilesAdded := n.numFilesAdded + 1 }
  else n

def numFilesOf (diff : DiffAnalysis) : Option NumFiles :=
  match diff.jobResult with
  | .diff files =>
    some (files.toList.foldl (fun n file => countFile n file.2) ⟨diff.fromId, diff.toId, 0, 0, 0⟩)
  | _ => none

def changedFile := insertRows changedFileOf fun r => (r.fromId, r.toId)

def numLines := insertRows numLinesOf fun r => (r.fromId, r.toId)

def numFiles := insertRows numFilesOf fun r => (r.fromId, r.toId)

/-! ## A count for each extension -/

/-- The extensions of all files of the diffs. -/
def extensions (diffs : List DiffAnalysis) : List String :=
  diffs.flatMap fun diff =>
    match diff.jobResult with
    | .diff files => files.keys.filterMap getExtension
    | _ => []

/-- `ON CONFLICT DO UPDATE SET count = count + excluded.count`. -/
def addCount (table : ExtTreeMap String ℤ compare) (ext : String) (count : ℤ) :
    ExtTreeMap String ℤ compare :=
  table.insert ext (table.getD ext 0 + count)

/-- The extensions stand in the statement between quotes and are not escaped. -/
def extCount (diffs : List DiffAnalysis) (table : ExtTreeMap String ℤ compare) :
    Option (ExtTreeMap String ℤ compare) :=
  let extCounts := (extensions diffs).foldl (fun m ext => addCount m ext 1) ∅
  if extCounts.isEmpty then some table
  else if extCounts.keys.any (·.toList.contains '\'') then none
  else some (extCounts.foldl addCount table)

end NpmFollower.Analysis
