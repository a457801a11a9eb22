import NpmFollower.Analysis.ProcessDiffAnalysis

/-! # Runs of the programs that summarise the diffs

The programs run at any time, with any page size, and may be stopped after any
page, while new results come in between. A pair that has a diff keeps it, as it
is no longer among the pairs to compute; under this condition a run that reaches
its end leaves exactly the rows of the diffs, whatever the runs before it did.
-/

namespace NpmFollower.Analysis

open Std PostgresDb

theorem processDiffAnalysis_eq_visit {σ : Type} (table : List DiffAnalysis) (n : ℕ)
    (writer : List DiffAnalysis → σ → Option σ) (pages : ℕ) (last : Option (ℤ × ℤ)) (s : σ) :
    processDiffAnalysis table n writer pages last s =
      KeysetPages.visit DiffAnalysis.key (fun _ => table) n writer pages (last.map toLex) s := by
  induction pages generalizing last s with
  | zero => rfl
  | succ pages ih =>
    rw [processDiffAnalysis, KeysetPages.visit, DiffAnalysis.queryTable_page]
    dsimp only
    cases (KeysetPages.page DiffAnalysis.key n (last.map toLex) table).getLast? with
    | none => rfl
    | some d =>
      dsimp only
      cases writer (KeysetPages.page DiffAnalysis.key n (last.map toLex) table) s with
      | none => rfl
      | some s' => exact ih (some d.pair) s'

/-! ## A row for each diff -/

section Rows

variable {ρ : Type} (row : DiffAnalysis → Option ρ) (key : ρ → ℤ × ℤ)

/-- Every row is that of a computed diff, and a pair has one row. -/
structure Summarized (analysis : List DiffAnalysis) (rows : List ρ) : Prop where
  nodup : (rows.map key).Nodup
  sound : ∀ r ∈ rows, ∃ d ∈ analysis, row d = some r

variable {row key} {analysis diffs : List DiffAnalysis} {rows rows' : List ρ}

theorem insertRows_eq (diffs : List DiffAnalysis) (rows : List ρ) :
    insertRows row key diffs rows =
      some ((diffs.filterMap row).foldl (Rows.insertMissing key) rows) := by
  rw [insertRows]
  split_ifs with h
  · rw [List.isEmpty_iff.mp h]
    rfl
  · rfl

variable (hkey : ∀ d r, row d = some r → key r = d.pair)
  (hanalysis : (analysis.map DiffAnalysis.pair).Nodup)

include hkey hanalysis

/-- A row with the key of a diff is the row of that diff. -/
theorem Summarized.mem_of_key (h : Summarized row key analysis rows) {d : DiffAnalysis} {r : ρ}
    (hd : d ∈ analysis) (hr : row d = some r) (hmem : key r ∈ rows.map key) : r ∈ rows := by
  obtain ⟨r', hr', hsame⟩ := List.mem_map.mp hmem
  obtain ⟨d', hd', hrow⟩ := h.sound r' hr'
  have hpair : d'.pair = d.pair := by rw [← hkey d' r' hrow, hsame, hkey d r hr]
  have hd'd : d' = d := List.inj_on_of_nodup_map hanalysis hd' hd hpair
  rw [hd'd, hr] at hrow
  exact Option.some.inj hrow ▸ hr'

theorem Summarized.insertRows (h : Summarized row key analysis rows)
    (hdiffs : ∀ d ∈ diffs, d ∈ analysis) (hins : insertRows row key diffs rows = some rows') :
    Summarized row key analysis rows' ∧ rows ⊆ rows' ∧
      ∀ d ∈ diffs, ∀ r, row d = some r → r ∈ rows' := by
  rw [insertRows_eq, Option.some.injEq] at hins
  subst hins
  have hnew : Summarized row key analysis
      ((diffs.filterMap row).foldl (Rows.insertMissing key) rows) := by
    refine ⟨Rows.nodup_foldl_insertMissing h.nodup, fun r hr => ?_⟩
    rcases Rows.mem_of_mem_foldl_insertMissing hr with hr | hr
    · exact h.sound r hr
    · obtain ⟨d, hd, hrow⟩ := List.mem_filterMap.mp hr
      exact ⟨d, hdiffs d hd, hrow⟩
  refine ⟨hnew, Rows.subset_foldl_insertMissing, fun d hd r hr => ?_⟩
  exact hnew.mem_of_key hkey hanalysis (hdiffs d hd) hr
    (Rows.mem_keys_foldl_insertMissing (List.mem_filterMap.mpr ⟨d, hd, hr⟩))

/-- What holds after the pages with the given diffs. -/
theorem Summarized.visit (h : Summarized row key analysis rows) {n : ℕ} (hn : 1 ≤ n) (pages : ℕ) :
    let result := processDiffAnalysis analysis n (Analysis.insertRows row key) pages none rows
    Summarized row key analysis result.1 ∧
      (result.2 = true → ∀ d ∈ analysis, ∀ r, row d = some r → r ∈ result.1) ∧
      (analysis.length < pages → result.2 = true) := by
  have hnodup : ∀ _ : List ρ, (analysis.map DiffAnalysis.key).Nodup :=
    fun _ => DiffAnalysis.nodup_key_iff.mpr hanalysis
  let I : List DiffAnalysis → List ρ → Prop := fun done rows =>
    Summarized row key analysis rows ∧ ∀ d ∈ done, ∀ r, row d = some r → r ∈ rows
  have hstep : ∀ done p s s', I done s → (∀ d ∈ p, d ∈ analysis) →
      (p.map DiffAnalysis.key).Nodup → Analysis.insertRows row key p s = some s' →
        I (done ++ p) s' := by
    intro done p s s' hI hp _ hins
    obtain ⟨hsum, hsub, hnew⟩ := hI.1.insertRows hkey hanalysis hp hins
    refine ⟨hsum, fun d hd r hr => ?_⟩
    rcases List.mem_append.mp hd with hd | hd
    · exact hsub (hI.2 d hd r hr)
    · exact hnew d hd r hr
  have hstart : I [] rows := ⟨h, fun d hd => absurd hd List.not_mem_nil⟩
  have hperm : (KeysetPages.behind DiffAnalysis.key none analysis).Perm analysis :=
    KeysetPages.behind_none_perm
  rw [processDiffAnalysis_eq_visit]
  obtain ⟨visited, -, hI, hend⟩ := KeysetPages.visit_rule hnodup hn (fun _ _ _ _ _ _ _ _ => rfl)
    hstep pages none [] rows hstart
  refine ⟨hI.1, fun hfin d hd r hr => hI.2 d ?_ r hr, fun hpages => ?_⟩
  · rw [hend hfin]
    exact hperm.mem_iff.mpr hd
  · refine KeysetPages.visit_finished hnodup hn (fun _ _ _ _ _ _ _ _ => rfl) ?_ pages none []
      rows hstart (hperm.length_eq ▸ hpages)
    intro done p s hI hp hnodup
    exact ⟨_, insertRows_eq p s, hstep done p s _ hI hp hnodup (insertRows_eq p s)⟩

end Rows

/-! ## What the rows say -/

/-- A changed file of type declarations. -/
def typesChanged (file : String × FileDiff) : Bool :=
  (getExtension file.1).isSome && isTypes file.1 && touched file.2

/-- A changed file of code that is no type declarations. -/
def codeChanged (file : String × FileDiff) : Bool :=
  (getExtension file.1).any isCode && !isTypes file.1 && touched file.2

theorem changedFlags_eq (files : List (String × FileDiff)) (types code : Bool) :
    changedFlags files types code = (types || files.any typesChanged, code || files.any codeChanged) := by
  induction files generalizing types code with
  | nil => simp [changedFlags]
  | cons file files ih =>
    obtain ⟨path, diff⟩ := file
    rw [changedFlags, List.any_cons, List.any_cons, typesChanged, codeChanged]
    cases hext : getExtension path with
    | none => simp [ih]
    | some ext =>
      simp only [Option.isSome_some, Option.any_some]
      cases isTypes path <;> cases touched diff <;> cases isCode ext <;> cases types <;>
        cases code <;> simp [ih]

/-- A file that is there before and after and has lines of both kinds. -/
def modified (diff : FileDiff) : Bool :=
  diff.totalOld.isSome && diff.totalNew.isSome && diff.added > 0 && diff.removed > 0

def deleted (diff : FileDiff) : Bool := diff.totalNew.isNone

def added (diff : FileDiff) : Bool := diff.totalOld.isNone && diff.totalNew.isSome

theorem countFile_eq (n : NumFiles) (diff : FileDiff) : countFile n diff =
    { n with
      numFilesAdded := n.numFilesAdded + if added diff then 1 else 0
      numFilesModified := n.numFilesModified + if modified diff then 1 else 0
      numFilesDeleted := n.numFilesDeleted + if deleted diff then 1 else 0 } := by
  rw [countFile]
  cases hold : diff.totalOld <;> cases hnew : diff.totalNew <;>
    simp [added, modified, deleted, hold, hnew]
  split_ifs <;> simp

theorem foldl_countFile (files : List (String × FileDiff)) (n : NumFiles) :
    files.foldl (fun n file => countFile n file.2) n =
      { n with
        numFilesAdded := n.numFilesAdded + files.countP (added ·.2)
        numFilesModified := n.numFilesModified + files.countP (modified ·.2)
        numFilesDeleted := n.numFilesDeleted + files.countP (deleted ·.2) } := by
  induction files generalizing n with
  | nil => simp
  | cons file files ih =>
    rw [List.foldl_cons, ih, countFile_eq, List.countP_cons, List.countP_cons, List.countP_cons]
    congr 1 <;> push_cast <;> ring

theorem foldl_add_eq (f : FileDiff → ℕ) (files : List (String × FileDiff)) (n : ℤ) :
    files.foldl (fun (n : ℤ) file => n + f file.2) n =
      n + (files.map fun file => (f file.2 : ℤ)).sum := by
  induction files generalizing n with
  | nil => simp
  | cons file files ih =>
    rw [List.foldl_cons, ih, List.map_cons, List.sum_cons, add_assoc]

section Files

variable {d : DiffAnalysis}

theorem changedFileOf_eq_some_iff {r : ChangedFile} : changedFileOf d = some r ↔
    ∃ files, d.jobResult = .diff files ∧ r = ⟨d.fromId, d.toId, files.toList.any typesChanged,
      files.toList.any codeChanged⟩ := by
  rw [changedFileOf]
  cases d.jobResult <;> simp [changedFlags_eq, eq_comm]

theorem numLinesOf_eq_some_iff {r : NumLines} : numLinesOf d = some r ↔
    ∃ files, d.jobResult = .diff files ∧ r = ⟨d.fromId, d.toId,
      (files.toList.map fun file => file.2.added).sum,
      (files.toList.map fun file => file.2.removed).sum⟩ := by
  rw [numLinesOf]
  cases d.jobResult <;> simp [foldl_add_eq FileDiff.added, foldl_add_eq FileDiff.removed, eq_comm]

theorem numFilesOf_eq_some_iff {r : NumFiles} : numFilesOf d = some r ↔
    ∃ files, d.jobResult = .diff files ∧ r = ⟨d.fromId, d.toId,
      files.toList.countP (added ·.2), files.toList.countP (modified ·.2),
      files.toList.countP (deleted ·.2)⟩ := by
  rw [numFilesOf]
  cases d.jobResult <;> simp [foldl_countFile, eq_comm]

end Files

/-! ## Runs of all programs -/

structure AnalysisDb where
  diffAnalysis : List DiffAnalysis
  diffChangedFiles : List ChangedFile
  diffNumLines : List NumLines
  diffNumFiles : List NumFiles
  diffExtCount : ExtTreeMap String ℤ compare

def AnalysisDb.empty : AnalysisDb := ⟨[], [], [], [], ∅⟩

inductive Program where
  | processDiffAnalysis
  | processNumLines
  | processNumFiles
  | processExtCount
deriving DecidableEq

inductive Action where
  | record (diffs : List DiffAnalysis)
  | process (program : Program) (chunkSize : ℤ) (pages : ℕ)

/-- A run of one program over at most so many pages, and whether it came to its end. -/
def AnalysisDb.process (s : AnalysisDb) (program : Program) (chunkSize : ℤ) (pages : ℕ) :
    AnalysisDb × Bool :=
  match program with
  | .processDiffAnalysis =>
    let result := Analysis.processDiffAnalysis s.diffAnalysis chunkSize changedFile pages none
      s.diffChangedFiles
    ({ s with diffChangedFiles := result.1 }, result.2)
  | .processNumLines =>
    let result := Analysis.processDiffAnalysis s.diffAnalysis chunkSize numLines pages none
      s.diffNumLines
    ({ s with diffNumLines := result.1 }, result.2)
  | .processNumFiles =>
    let result := Analysis.processDiffAnalysis s.diffAnalysis chunkSize numFiles pages none
      s.diffNumFiles
    ({ s with diffNumFiles := result.1 }, result.2)
  | .processExtCount =>
    let result := Analysis.processDiffAnalysis s.diffAnalysis chunkSize extCount pages none
      s.diffExtCount
    ({ s with diffExtCount := result.1 }, result.2)

def AnalysisDb.step (s : AnalysisDb) : Action → Option AnalysisDb
  | .record diffs =>
    (DiffAnalysis.insertBatchDiffAnalysis diffs s.diffAnalysis).map fun table =>
      { s with diffAnalysis := table }
  | .process program chunkSize pages => some (s.process program chunkSize pages).1

def hasDiff (d : DiffAnalysis) : Bool :=
  match d.jobResult with
  | .diff _ => true
  | _ => false

/-- No new result is about a pair that has a diff. -/
def AnalysisDb.Meets (s : AnalysisDb) : Action → Prop
  | .record diffs => ∀ d ∈ s.diffAnalysis, hasDiff d → d.pair ∉ diffs.map DiffAnalysis.pair
  | .process _ _ _ => True

/-- Each table has at most one row for a pair, and only rows of diffs. -/
structure AnalysisDb.Sound (s : AnalysisDb) : Prop where
  nodup : (s.diffAnalysis.map DiffAnalysis.pair).Nodup
  changedFiles : Summarized changedFileOf (fun r => (r.fromId, r.toId)) s.diffAnalysis
    s.diffChangedFiles
  numLines : Summarized numLinesOf (fun r => (r.fromId, r.toId)) s.diffAnalysis s.diffNumLines
  numFiles : Summarized numFilesOf (fun r => (r.fromId, r.toId)) s.diffAnalysis s.diffNumFiles

section Members

theorem pair_of_changedFileOf (d : DiffAnalysis) (r : ChangedFile) (h : changedFileOf d = some r) :
    (r.fromId, r.toId) = d.pair := by
  obtain ⟨files, -, rfl⟩ := changedFileOf_eq_some_iff.mp h
  rfl

theorem pair_of_numLinesOf (d : DiffAnalysis) (r : NumLines) (h : numLinesOf d = some r) :
    (r.fromId, r.toId) = d.pair := by
  obtain ⟨files, -, rfl⟩ := numLinesOf_eq_some_iff.mp h
  rfl

theorem pair_of_numFilesOf (d : DiffAnalysis) (r : NumFiles) (h : numFilesOf d = some r) :
    (r.fromId, r.toId) = d.pair := by
  obtain ⟨files, -, rfl⟩ := numFilesOf_eq_some_iff.mp h
  rfl

end Members

section Steps

variable {ρ : Type} {row : DiffAnalysis → Option ρ} {key : ρ → ℤ × ℤ}
  {analysis analysis' diffs : List DiffAnalysis} {rows : List ρ}

theorem Summarized.nil : Summarized row key analysis ([] : List ρ) :=
  ⟨List.nodup_nil, fun _ hr => absurd hr List.not_mem_nil⟩

theorem Summarized.record (h : Summarized row key analysis rows)
    (hdiff : ∀ d r, row d = some r → hasDiff d)
    (hnew : DiffAnalysis.insertBatchDiffAnalysis diffs analysis = some analysis')
    (hmeets : ∀ d ∈ analysis, hasDiff d → d.pair ∉ diffs.map DiffAnalysis.pair) :
    Summarized row key analysis' rows := by
  refine ⟨h.nodup, fun r hr => ?_⟩
  obtain ⟨d, hd, hrow⟩ := h.sound r hr
  have hpair := hmeets d hd (hdiff d r hrow)
  exact ⟨d, (DiffAnalysis.mem_insertBatch hnew).mpr (Or.inr ⟨hd, hpair⟩), hrow⟩

/-- A run of any page size, also one that panics or reads nothing. -/
theorem Summarized.process (h : Summarized row key analysis rows)
    (hkey : ∀ d r, row d = some r → key r = d.pair)
    (hanalysis : (analysis.map DiffAnalysis.pair).Nodup) (chunkSize : ℤ) (pages : ℕ) :
    Summarized row key analysis
      (processDiffAnalysis analysis chunkSize (Analysis.insertRows row key) pages none rows).1 := by
  rcases lt_or_ge 0 chunkSize with hpos | hle
  · lift chunkSize to ℕ using hpos.le
    exact (h.visit hkey hanalysis (by omega) pages).1
  · cases pages with
    | zero => exact h
    | succ pages =>
      rw [processDiffAnalysis, DiffAnalysis.queryTable]
      rcases hle.lt_or_eq with hneg | rfl
      · simpa [hneg] using h
      · simpa using h

end Steps

theorem hasDiff_of_eq {d : DiffAnalysis} {files : ExtTreeMap String FileDiff compare}
    (h : d.jobResult = .diff files) : hasDiff d = true := by
  simp [hasDiff, h]

theorem AnalysisDb.Sound.step {s s' : AnalysisDb} {a : Action} (h : s.Sound)
    (hmeets : s.Meets a) (hstep : s.step a = some s') : s'.Sound := by
  cases a with
  | record diffs =>
    obtain ⟨table, hins, rfl⟩ := Option.map_eq_some_iff.mp hstep
    refine ⟨DiffAnalysis.nodup_insertBatch hins h.nodup, ?_, ?_, ?_⟩
    · refine h.changedFiles.record (fun d r hr => ?_) hins hmeets
      obtain ⟨files, hfiles, -⟩ := changedFileOf_eq_some_iff.mp hr
      exact hasDiff_of_eq hfiles
    · refine h.numLines.record (fun d r hr => ?_) hins hmeets
      obtain ⟨files, hfiles, -⟩ := numLinesOf_eq_some_iff.mp hr
      exact hasDiff_of_eq hfiles
    · refine h.numFiles.record (fun d r hr => ?_) hins hmeets
      obtain ⟨files, hfiles, -⟩ := numFilesOf_eq_some_iff.mp hr
      exact hasDiff_of_eq hfiles
  | process program chunkSize pages =>
    obtain rfl := Option.some.inj hstep
    cases program with
    | processDiffAnalysis =>
      exact { h with
        changedFiles := h.changedFiles.process pair_of_changedFileOf h.nodup chunkSize pages }
    | processNumLines =>
      exact { h with numLines := h.numLines.process pair_of_numLinesOf h.nodup chunkSize pages }
    | processNumFiles =>
      exact { h with numFiles := h.numFiles.process pair_of_numFilesOf h.nodup chunkSize pages }
    | processExtCount => exact { h with }

theorem AnalysisDb.sound_of_reach {s : AnalysisDb}
    (h : Runs.Reach AnalysisDb.step AnalysisDb.Meets .empty s) : s.Sound := by
  refine h.invariant ?_ fun hs hm hstep => hs.step hm hstep
  exact ⟨List.nodup_nil, .nil, .nil, .nil⟩

instance (s : AnalysisDb) (a : Action) : Decidable (s.Meets a) :=
  match a with
  | .record diffs => inferInstanceAs
      (Decidable (∀ d ∈ s.diffAnalysis, hasDiff d → d.pair ∉ diffs.map DiffAnalysis.pair))
  | .process _ _ _ => inferInstanceAs (Decidable True)

/-- A pair fails at first, and a run over the lines stops after a page, before the pair is done. -/
def retriedPair : List Action :=
  [.record [⟨1, 2, .diff (.ofList [("index.js", ⟨3, 1, some 9, some 11, 0⟩)] compare)⟩,
      ⟨1, 3, .errUnParseable⟩],
    .process .processNumLines 1 1,
    .record [⟨1, 3, .diff (.ofList [("index.d.ts", ⟨0, 2, some 4, some 2, 0⟩)] compare)⟩]]

end NpmFollower.Analysis
