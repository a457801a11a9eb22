import NpmFollower.Library.Make
import NpmFollower.Library.FiniteMap

/-! # The makefile of the analysis

The steps of the analysis and what they depend on are written as a makefile. A step
has a rule for its touch file, one under its name, and one that cleans it after the
steps that depend on it. The text reads back as these rules.
-/

namespace NpmFollower.Analysis

open Std

def psqlCommand : String := "psql -d npm_data -v ON_ERROR_STOP=1 -a -f"

inductive StepType where
  | sql
  | rust
deriving DecidableEq

def StepType.generateShellCmd (stepName : String) : StepType → String
  | .sql => psqlCommand ++ " sql/" ++ stepName ++ ".sql"
  | .rust => "cd rust; cargo run --release --bin " ++ stepName

structure AnalysisStep where
  name : String
  stepType : StepType

structure AnalysisDag where
  steps : ExtTreeMap String (StepType × List String) compare

namespace AnalysisDag

def new : AnalysisDag := ⟨∅⟩

def touchFile (step : String) : String := "makefile_state/" ++ step ++ ".touch"

def cleanTarget (step : String) : String := "clean_" ++ step

def sqlFile (directory step : String) : String := directory ++ "/" ++ step ++ ".sql"

def cleanLine (step : String) : String :=
  "if [ -f " ++ touchFile step ++ " ]; then " ++ psqlCommand ++ " " ++ sqlFile "clean" step ++
    "; else true; fi"

def sorted (names : List String) : List String := names.insertionSort (· ≤ ·)

variable (dag : AnalysisDag)

def addStep (step : AnalysisStep) (dependsOn : List String) : AnalysisDag :=
  ⟨dag.steps.insert step.name (step.stepType, dependsOn)⟩

def getStepType (step : String) : Option StepType := dag.steps[step]?.map Prod.fst

def getDependencies (step : String) : Option (List String) := dag.steps[step]?.map Prod.snd

def getAllStepNames : List String := dag.steps.keys

def getReverseDependencies (step : String) : List String :=
  (dag.steps.toList.filter fun e => e.2.2.contains step).map Prod.fst

def assertClosure : Bool := dag.steps.toList.all fun e => e.2.2.all fun d => dag.steps.contains d

def linesOf (step : String) (stepType : StepType) (dependsOn : List String) : List String :=
  ["# -------- " ++ step ++ " --------",
    touchFile step ++ ": " ++ " ".intercalate ((sorted dependsOn).map touchFile),
    "\t" ++ stepType.generateShellCmd step,
    "\t" ++ ("touch " ++ touchFile step),
    "",
    ".PHONY: " ++ step,
    step ++ ": " ++ touchFile step,
    "",
    ".PHONY: " ++ cleanTarget step,
    cleanTarget step ++ ": " ++
      " ".intercalate (sorted ((dag.getReverseDependencies step).map cleanTarget)),
    "\t" ++ cleanLine step,
    "\t" ++ ("rm -f " ++ touchFile step),
    ""]

/-- The lines of a step; `none` is a panic. -/
def stepLines (step : String) : Option (List String) := do
  let dependsOn ← dag.getDependencies step
  let stepType ← dag.getStepType step
  return dag.linesOf step stepType dependsOn

/-- The file that is written; `none` is a panic. -/
def makefile : Option String :=
  if dag.assertClosure then do
    let allNodes := dag.getAllStepNames
    let lines ← allNodes.mapM dag.stepLines
    return String.join ((".PHONY: all" :: ("all: " ++ " ".intercalate allNodes) :: "" ::
      lines.flatten).map (· ++ "\n"))
  else none

end AnalysisDag

/-- The steps of the analysis, in the order in which they are added. -/
def analysisSteps : List (AnalysisStep × List String) := [
  (⟨"setup_analysis", .sql⟩, []),
  (⟨"constraint_types", .sql⟩, ["setup_analysis"]),
  (⟨"unique_package_deps", .sql⟩, ["constraint_types"]),
  (⟨"version_ordering_validation", .sql⟩, ["setup_analysis"]),
  (⟨"build_updates", .sql⟩, ["version_ordering_validation"]),
  (⟨"find_patches", .sql⟩, ["build_updates"]),
  (⟨"vulnerable_versions", .sql⟩, ["setup_analysis"]),
  (⟨"vuln_intro_updates", .sql⟩, ["vulnerable_versions", "build_updates"]),
  (⟨"prepare_diffs_to_compute", .sql⟩, ["build_updates"]),
  (⟨"possible_direct_dev_deps", .sql⟩, ["setup_analysis"]),
  (⟨"possible_direct_any_deps_non_deleted", .sql⟩, ["setup_analysis"]),
  (⟨"possible_direct_runtime_deps", .sql⟩, ["setup_analysis"]),
  (⟨"version_direct_runtime_deps", .sql⟩, ["setup_analysis"]),
  (⟨"possible_transitive_runtime_deps", .sql⟩, ["possible_direct_runtime_deps"]),
  (⟨"possible_install_deps", .sql⟩,
    ["possible_direct_dev_deps", "possible_direct_runtime_deps",
      "possible_transitive_runtime_deps"]),
  (⟨"deps_stats", .sql⟩,
    ["possible_direct_dev_deps", "possible_direct_runtime_deps",
      "possible_transitive_runtime_deps", "possible_install_deps"]),
  (⟨"subsampled_possible_install_deps", .sql⟩, ["possible_install_deps"]),
  (⟨"subsampled_updates", .sql⟩, ["build_updates"]),
  (⟨"security_replaced_versions", .sql⟩, ["setup_analysis"]),
  (⟨"possibly_malicious_packages", .rust⟩, ["security_replaced_versions"]),
  (⟨"unpublished_versions", .sql⟩, ["setup_analysis"]),
  (⟨"out_of_policy_unpublish", .sql⟩,
    ["unpublished_versions", "possible_direct_any_deps_non_deleted"]),
  (⟨"package_avg_sizes", .sql⟩, ["setup_analysis"]),
  (⟨"version_unnest_prod_dependencies", .sql⟩, ["setup_analysis"]),
  (⟨"update_full_client_set", .sql⟩,
    ["deps_stats", "build_updates", "version_unnest_prod_dependencies"]),
  (⟨"prep_breaking_change_tests", .sql⟩, ["update_full_client_set", "deps_stats"]),
  (⟨"total_package_downloads", .sql⟩, ["setup_analysis"])]

def analysisDag : AnalysisDag :=
  analysisSteps.foldl (fun dependencies e => dependencies.addStep e.1 e.2) AnalysisDag.new

namespace AnalysisDag

variable (dag : AnalysisDag)

/-! ## The rules of the makefile -/

def allRule : Make.Rule String String := ⟨"all", dag.getAllStepNames, [], true⟩

def touchRule (step : String) (stepType : StepType) (dependsOn : List String) :
    Make.Rule String String :=
  ⟨touchFile step, (sorted dependsOn).map touchFile,
    [stepType.generateShellCmd step, "touch " ++ touchFile step], false⟩

def nameRule (step : String) : Make.Rule String String := ⟨step, [touchFile step], [], true⟩

def cleanRule (step : String) : Make.Rule String String :=
  ⟨cleanTarget step, sorted ((dag.getReverseDependencies step).map cleanTarget),
    [cleanLine step, "rm -f " ++ touchFile step], true⟩

def stepRules (e : String × StepType × List String) : List (Make.Rule String String) :=
  [touchRule e.1 e.2.1 e.2.2, nameRule e.1, dag.cleanRule e.1]

def rules : List (Make.Rule String String) := dag.allRule :: dag.steps.toList.flatMap dag.stepRules

end AnalysisDag

/-! ## The names of the steps -/

def nameChar (c : Char) : Bool := c.isAlphanum || c == '_'

/-- A name that the makefile can hold, and that is not the name of another target. -/
structure StepName (s : String) : Prop where
  nonempty : s ≠ ""
  chars : ∀ c ∈ s.toList, nameChar c
  notAll : s ≠ "all"
  notClean : ¬ "clean_".toList <+: s.toList

instance (s : String) : Decidable (StepName s) :=
  decidable_of_iff (s ≠ "" ∧ s.toList.all nameChar ∧ s ≠ "all" ∧ ¬ "clean_".toList <+: s.toList)
    ⟨fun h => ⟨h.1, fun c hc => List.all_eq_true.mp h.2.1 c hc, h.2.2.1, h.2.2.2⟩,
      fun h => ⟨h.nonempty, List.all_eq_true.mpr h.chars, h.notAll, h.notClean⟩⟩

section Names

variable {s s' : String}

theorem nameChar_ne {c d : Char} (hc : nameChar c) (hd : nameChar d = false) : c ≠ d := by
  rintro rfl
  exact Bool.false_ne_true (hd.symm.trans hc)

/-- No character of the text has a meaning for make. -/
def Harmless (s : String) : Prop := ∀ c ∈ s.toList, c ≠ ' ' ∧ c ≠ ':' ∧ c ≠ '\n'

theorem Harmless.append (hs : Harmless s) (hs' : Harmless s') : Harmless (s ++ s') := by
  intro c hc
  rw [String.toList_append] at hc
  exact (List.mem_append.mp hc).elim (hs c) (hs' c)

/-- The text has no end of a line in it. -/
def OneLine (s : String) : Prop := '\n' ∉ s.toList

theorem OneLine.append (hs : OneLine s) (hs' : OneLine s') : OneLine (s ++ s') := by
  rw [OneLine, String.toList_append, List.mem_append]
  exact fun hmem => hmem.elim hs hs'

theorem OneLine.intercalate {ws : List String} (hws : ∀ w ∈ ws, OneLine w) :
    OneLine (" ".intercalate ws) := by
  rw [OneLine, String.toList_intercalate]
  intro hmem
  rcases Separators.mem_intercalate hmem with hsep | ⟨l, hl, hmem⟩
  · exact absurd hsep (by decide)
  · obtain ⟨w, hw, rfl⟩ := List.mem_map.mp hl
    exact hws w hw hmem

theorem Harmless.oneLine (h : Harmless s) : OneLine s := fun hmem => (h _ hmem).2.2 rfl

theorem Harmless.plain (h : Harmless s) (hne : s ≠ "") : Make.Plain s :=
  ⟨hne, fun c hc => ⟨(h c hc).1, (h c hc).2.1⟩⟩

theorem append_ne_empty (h : s ≠ "") : s ++ s' ≠ "" := by
  intro hempty
  rw [String.append_eq_empty_iff] at hempty
  exact h hempty.1

theorem StepName.harmless (h : StepName s) : Harmless s := fun _ hc =>
  ⟨nameChar_ne (h.chars _ hc) (by decide), nameChar_ne (h.chars _ hc) (by decide),
    nameChar_ne (h.chars _ hc) (by decide)⟩

theorem StepName.head_ne (h : StepName s) : ∀ c ∈ s.toList.head?, c ≠ '#' ∧ c ≠ '\t' := fun c hc =>
  have hmem : c ∈ s.toList := List.mem_of_mem_head? hc
  ⟨nameChar_ne (h.chars c hmem) (by decide), nameChar_ne (h.chars c hmem) (by decide)⟩

theorem StepName.ne_phony (h : StepName s) : s ≠ ".PHONY" := fun heq =>
  nameChar_ne (d := '.') (h.chars '.' (by simp [heq])) (by decide) rfl

theorem StepName.not_mem_slash (h : StepName s) : '/' ∉ s.toList := fun hc =>
  nameChar_ne (h.chars _ hc) (by decide) rfl

namespace AnalysisDag

theorem touchFile_injective : Function.Injective touchFile := by
  intro s s' h
  have hlist := congrArg String.toList h
  simp only [touchFile, String.toList_append] at hlist
  exact String.toList_injective (List.append_cancel_left (List.append_cancel_right hlist))

theorem cleanTarget_injective : Function.Injective cleanTarget := by
  intro s s' h
  have hlist := congrArg String.toList h
  simp only [cleanTarget, String.toList_append] at hlist
  exact String.toList_injective (List.append_cancel_left hlist)

theorem harmless_touchFile (h : StepName s) : Harmless (touchFile s) :=
  (Harmless.append (by simp [Harmless]) h.harmless).append (by simp [Harmless])

theorem harmless_cleanTarget (h : StepName s) : Harmless (cleanTarget s) :=
  Harmless.append (by simp [Harmless]) h.harmless

theorem slash_mem_touchFile : '/' ∈ (touchFile s).toList := by
  simp [touchFile]

theorem touchFile_ne (h : StepName s') : touchFile s ≠ s' := fun heq =>
  h.not_mem_slash (heq ▸ slash_mem_touchFile)

theorem touchFile_ne_cleanTarget (h : StepName s') : touchFile s ≠ cleanTarget s' := by
  intro heq
  have hmem : '/' ∈ (cleanTarget s').toList := heq ▸ slash_mem_touchFile
  rw [cleanTarget, String.toList_append] at hmem
  rcases List.mem_append.mp hmem with hmem | hmem
  · exact absurd hmem (by decide)
  · exact h.not_mem_slash hmem

theorem touchFile_head : ∀ c ∈ (touchFile s).toList.head?, c ≠ '#' ∧ c ≠ '\t' := by
  simp [touchFile]

theorem cleanTarget_head : ∀ c ∈ (cleanTarget s).toList.head?, c ≠ '#' ∧ c ≠ '\t' := by
  simp [cleanTarget]

theorem touchFile_ne_phony : touchFile s ≠ ".PHONY" := fun heq =>
  absurd (heq ▸ @slash_mem_touchFile s) (by decide)

theorem cleanTarget_ne_phony : cleanTarget s ≠ ".PHONY" := fun heq => by
  have hhead := congrArg (fun t => t.toList.head?) heq
  simp [cleanTarget] at hhead

theorem cleanTarget_ne (h : StepName s') : cleanTarget s ≠ s' := fun heq =>
  h.notClean (by rw [← heq, cleanTarget, String.toList_append]; exact List.prefix_append _ _)

theorem mem_sorted {names : List String} : s ∈ sorted names ↔ s ∈ names :=
  (List.perm_insertionSort _ _).mem_iff

end AnalysisDag

end Names

/-! ## Reading the makefile -/

namespace AnalysisDag

/-- All steps, and what they depend on, have names that fit. -/
def Named (dag : AnalysisDag) : Prop :=
  ∀ step type dependsOn, dag.steps[step]? = some (type, dependsOn) →
    StepName step ∧ ∀ d ∈ dependsOn, StepName d

section Reading

variable {dag : AnalysisDag} {step : String} {stepType : StepType} {dependsOn : List String}

theorem mem_getReverseDependencies {r : String} : r ∈ dag.getReverseDependencies step ↔
    ∃ type dependsOn, dag.steps[r]? = some (type, dependsOn) ∧ step ∈ dependsOn := by
  simp only [getReverseDependencies, List.mem_map, List.mem_filter, List.contains_iff_mem,
    Prod.exists, ExtTreeMap.mem_toList_iff_getElem?_eq_some]
  constructor
  · rintro ⟨r, type, dependsOn, ⟨hr, hmem⟩, rfl⟩
    exact ⟨type, dependsOn, hr, hmem⟩
  · rintro ⟨type, dependsOn, hr, hmem⟩
    exact ⟨r, type, dependsOn, ⟨hr, hmem⟩, rfl⟩

/-- The rules of a step, before it is known which targets are no files. -/
def plainRules (dag : AnalysisDag) (e : String × StepType × List String) :
    List (Make.Rule String String) :=
  (dag.stepRules e).map fun rule => { rule with phony := false }

theorem readLines_linesOf (hstep : StepName step) (hdeps : ∀ d ∈ dependsOn, StepName d)
    (hrev : ∀ d ∈ dag.getReverseDependencies step, StepName d) (r : Make.Reading) :
    r.readLines ((dag.linesOf step stepType dependsOn).map String.toList) =
      some ⟨r.phony ++ [step, cleanTarget step],
        r.rules ++ dag.plainRules (step, stepType, dependsOn)⟩ := by
  have hcomment : ("# -------- " ++ step ++ " --------").toList =
      '#' :: (" -------- " ++ step ++ " --------").toList := by
    simp
  have hname : Make.Plain step := hstep.harmless.plain hstep.nonempty
  have htouch : ∀ s, StepName s → Make.Plain (touchFile s) := fun s hs =>
    (harmless_touchFile hs).plain (append_ne_empty (append_ne_empty (by decide)))
  have hclean : ∀ s, StepName s → Make.Plain (cleanTarget s) := fun s hs =>
    (harmless_cleanTarget hs).plain (append_ne_empty (by decide))
  have htouchLine : ∀ r : Make.Reading, r.readLine
      (touchFile step ++ ": " ++ " ".intercalate ((sorted dependsOn).map touchFile)).toList =
        some ⟨r.phony, r.rules ++ [⟨touchFile step, (sorted dependsOn).map touchFile, [], false⟩]⟩ := by
    intro r
    rw [Make.Reading.readLine_words (htouch step hstep) touchFile_head, if_neg touchFile_ne_phony]
    · intro w hw
      obtain ⟨d, hd, rfl⟩ := List.mem_map.mp hw
      exact htouch d (hdeps d (mem_sorted.mp hd))
  have hnameLine : ∀ r : Make.Reading, r.readLine (step ++ ": " ++ touchFile step).toList =
      some ⟨r.phony, r.rules ++ [⟨step, [touchFile step], [], false⟩]⟩ := by
    intro r
    have htext : touchFile step = " ".intercalate [touchFile step] := by
      rw [String.intercalate_singleton]
    rw [htext, Make.Reading.readLine_words hname hstep.head_ne, if_neg hstep.ne_phony, ← htext]
    intro w hw
    rw [List.mem_singleton.mp hw]
    exact htouch step hstep
  have hcleanLine : ∀ r : Make.Reading, r.readLine (cleanTarget step ++ ": " ++ " ".intercalate
      (sorted ((dag.getReverseDependencies step).map cleanTarget))).toList =
        some ⟨r.phony, r.rules ++ [⟨cleanTarget step,
          sorted ((dag.getReverseDependencies step).map cleanTarget), [], false⟩]⟩ := by
    intro r
    rw [Make.Reading.readLine_words (hclean step hstep) cleanTarget_head,
      if_neg cleanTarget_ne_phony]
    · intro w hw
      obtain ⟨d, hd, rfl⟩ := List.mem_map.mp (mem_sorted.mp hw)
      exact hclean d (hrev d hd)
  have hblank : ∀ r : Make.Reading, r.readLine "".toList = some r := fun _ => rfl
  simp only [linesOf, Make.Reading.readLines, List.map_cons, List.map_nil, List.foldlM_cons,
    List.foldlM_nil, hcomment, Make.Reading.readLine_comment, Option.bind_eq_bind,
    Option.bind_some, htouchLine, hnameLine, hcleanLine, hblank, Make.Reading.readLine_recipe,
    Make.Reading.readLine_phony hname, Make.Reading.readLine_phony (hclean step hstep)]
  simp [plainRules, stepRules, touchRule, nameRule, cleanRule]

theorem oneLine_linesOf (hstep : StepName step) (hdeps : ∀ d ∈ dependsOn, StepName d)
    (hrev : ∀ d ∈ dag.getReverseDependencies step, StepName d) :
    ∀ line ∈ dag.linesOf step stepType dependsOn, OneLine line := by
  have hname := hstep.harmless.oneLine
  have htouch := (harmless_touchFile hstep).oneLine
  have hclean := (harmless_cleanTarget hstep).oneLine
  have hpsql : OneLine psqlCommand := by simp [OneLine, psqlCommand]
  have hcommand : OneLine (stepType.generateShellCmd step) := by
    cases stepType with
    | sql => exact ((hpsql.append (by simp [OneLine])).append hname).append (by simp [OneLine])
    | rust => exact OneLine.append (by simp [OneLine]) hname
  have hcleanLine : OneLine (cleanLine step) := by
    refine OneLine.append (((((OneLine.append ?_ htouch).append ?_).append hpsql).append ?_).append
      (((OneLine.append ?_ ?_).append hname).append ?_)) ?_ <;> simp [OneLine]
  have hdepsLine : OneLine (" ".intercalate ((sorted dependsOn).map touchFile)) := by
    refine OneLine.intercalate fun w hw => ?_
    obtain ⟨d, hd, rfl⟩ := List.mem_map.mp hw
    exact (harmless_touchFile (hdeps d (mem_sorted.mp hd))).oneLine
  have hrevLine : OneLine
      (" ".intercalate (sorted ((dag.getReverseDependencies step).map cleanTarget))) := by
    refine OneLine.intercalate fun w hw => ?_
    obtain ⟨d, hd, rfl⟩ := List.mem_map.mp (mem_sorted.mp hw)
    exact (harmless_cleanTarget (hrev d hd)).oneLine
  have hempty : OneLine "" := by simp [OneLine]
  have htab : OneLine "\t" := by simp [OneLine]
  have hphony : OneLine ".PHONY: " := by simp [OneLine]
  have hcolon : OneLine ": " := by simp [OneLine]
  simp only [linesOf, List.forall_mem_cons, List.not_mem_nil, false_imp_iff, implies_true, and_true]
  exact ⟨(OneLine.append (by simp [OneLine]) hname).append (by simp [OneLine]),
    (htouch.append hcolon).append hdepsLine, htab.append hcommand,
    htab.append (OneLine.append (by simp [OneLine]) htouch), hempty, hphony.append hname,
    (hname.append hcolon).append htouch, hempty, hphony.append hclean,
    (hclean.append hcolon).append hrevLine, htab.append hcleanLine,
    htab.append (OneLine.append (by simp [OneLine]) htouch), hempty⟩

end Reading

section Makefile

variable {dag : AnalysisDag}

theorem mapM_stepLines :
    dag.getAllStepNames.mapM dag.stepLines =
      some (dag.steps.toList.map fun e => dag.linesOf e.1 e.2.1 e.2.2) := by
  have hlines : ∀ e ∈ dag.steps.toList, dag.stepLines e.1 = some (dag.linesOf e.1 e.2.1 e.2.2) := by
    rintro ⟨step, stepType, dependsOn⟩ he
    have hstep := ExtTreeMap.mem_toList_iff_getElem?_eq_some.mp he
    simp [stepLines, getDependencies, getStepType, hstep]
  rw [getAllStepNames, ← ExtTreeMap.map_fst_toList_eq_keys, List.mapM_map]
  generalize dag.steps.toList = entries at hlines
  induction entries with
  | nil => rfl
  | cons e entries ih =>
    rw [List.mapM_cons, Function.comp_apply, hlines e List.mem_cons_self,
      ih fun e' he' => hlines e' (List.mem_cons_of_mem _ he')]
    rfl

theorem Named.reverse (h : dag.Named) {step r : String} (hr : r ∈ dag.getReverseDependencies step) :
    StepName r := by
  obtain ⟨type, dependsOn, hr, -⟩ := mem_getReverseDependencies.mp hr
  exact (h r type dependsOn hr).1

theorem Named.mem_toList (h : dag.Named) {e : String × StepType × List String}
    (he : e ∈ dag.steps.toList) : StepName e.1 ∧ ∀ d ∈ e.2.2, StepName d :=
  h e.1 e.2.1 e.2.2 (ExtTreeMap.mem_toList_iff_getElem?_eq_some.mp he)

theorem readLines_entries (h : dag.Named) {entries : List (String × StepType × List String)}
    (hentries : entries ⊆ dag.steps.toList) (r : Make.Reading) :
    r.readLines ((entries.flatMap fun e => dag.linesOf e.1 e.2.1 e.2.2).map String.toList) =
      some ⟨r.phony ++ entries.flatMap fun e => [e.1, cleanTarget e.1],
        r.rules ++ entries.flatMap dag.plainRules⟩ := by
  induction entries generalizing r with
  | nil => simp [Make.Reading.readLines]
  | cons e entries ih =>
    obtain ⟨hname, hdeps⟩ := h.mem_toList (hentries List.mem_cons_self)
    rw [List.flatMap_cons, List.map_append, Make.Reading.readLines_append,
      readLines_linesOf hname hdeps fun d hd => h.reverse hd, Option.bind_some,
      ih fun e' he' => hentries (List.mem_cons_of_mem _ he')]
    simp

/-- Which targets are no files is as the rules say. -/
theorem phony_iff (h : dag.Named) {rule : Make.Rule String String} (hrule : rule ∈ dag.rules) :
    rule.target ∈ "all" :: dag.steps.toList.flatMap (fun e => [e.1, cleanTarget e.1]) ↔
      rule.phony = true := by
  rcases List.mem_cons.mp hrule with rfl | hrule
  · simp [allRule]
  obtain ⟨e, he, hrule⟩ := List.mem_flatMap.mp hrule
  simp only [stepRules, List.mem_cons, List.not_mem_nil, or_false] at hrule
  rcases hrule with rfl | rfl | rfl
  · simp only [touchRule, Bool.false_eq_true, iff_false, List.mem_cons, List.mem_flatMap, not_or]
    refine ⟨fun heq => absurd (heq ▸ @slash_mem_touchFile e.1) (by decide), ?_⟩
    rintro ⟨e', he', hmem⟩
    simp only [List.not_mem_nil, or_false] at hmem
    have hname := (h.mem_toList he').1
    exact hmem.elim (touchFile_ne hname) (touchFile_ne_cleanTarget hname)
  · refine iff_of_true (List.mem_cons_of_mem _ (List.mem_flatMap.mpr ⟨e, he, ?_⟩)) rfl
    exact List.mem_cons_self
  · refine iff_of_true (List.mem_cons_of_mem _ (List.mem_flatMap.mpr ⟨e, he, ?_⟩)) rfl
    exact List.mem_cons_of_mem _ (List.mem_singleton_self _)

/-- The file that is written reads back as the rules. -/
theorem read_makefile (h : dag.Named) {text : String} (htext : dag.makefile = some text) :
    Make.read text = some dag.rules := by
  rw [makefile, Option.ite_none_right_eq_some] at htext
  obtain ⟨-, htext⟩ := htext
  simp only [mapM_stepLines, Option.bind_eq_bind, Option.bind_some] at htext
  cases htext
  have hnames : ∀ s ∈ dag.getAllStepNames, StepName s := by
    intro s hs
    rw [getAllStepNames, ← ExtTreeMap.map_fst_toList_eq_keys] at hs
    obtain ⟨e, he, rfl⟩ := List.mem_map.mp hs
    exact (h.mem_toList he).1
  rw [← List.flatMap_def, Make.read_lines]
  · have hall : Make.Plain "all" := ⟨by decide, by simp⟩
    have hallLine : ∀ r : Make.Reading, r.readLine
        ("all: " ++ " ".intercalate dag.getAllStepNames).toList =
          some ⟨r.phony, r.rules ++ [⟨"all", dag.getAllStepNames, [], false⟩]⟩ := fun r =>
      (Make.Reading.readLine_words hall (by simp) fun s hs =>
        (hnames s hs).harmless.plain (hnames s hs).nonempty).trans (if_neg (by decide))
    have hphony : ∀ r : Make.Reading, r.readLine ".PHONY: all".toList =
        some { r with phony := r.phony ++ ["all"] } := fun r =>
      Make.Reading.readLine_phony (r := r) hall
    have hblank : ∀ r : Make.Reading, r.readLine "".toList = some r := fun _ => rfl
    have hfirst : ∀ lines, Make.Reading.readLines ⟨[], []⟩
        (".PHONY: all".toList :: ("all: " ++ " ".intercalate dag.getAllStepNames).toList ::
          "".toList :: lines) =
        Make.Reading.readLines ⟨["all"], [⟨"all", dag.getAllStepNames, [], false⟩]⟩ lines := by
      intro lines
      simp only [Make.Reading.readLines, List.foldlM_cons, hphony, hallLine, hblank,
        Option.bind_eq_bind, Option.bind_some, List.nil_append]
    simp only [List.map_cons, hfirst, readLines_entries h (List.Subset.refl _), Option.map_some]
    refine congrArg some ?_
    have hplain : (⟨"all", dag.getAllStepNames, [], false⟩ : Make.Rule String String) ::
        dag.steps.toList.flatMap dag.plainRules =
          dag.rules.map fun rule => { rule with phony := false } := by
      rw [rules, List.map_cons, List.map_flatMap]
      rfl
    simp only [Make.Reading.finish, List.singleton_append]
    rw [hplain, List.map_map]
    refine (List.map_congr_left fun rule hrule => ?_).trans (List.map_id _)
    have hiff := phony_iff h hrule
    simp only [Function.comp_apply, id]
    cases rule with
    | mk target prereqs recipe phony => cases phony <;> simpa using hiff
  · intro line hline
    simp only [List.mem_cons] at hline
    rcases hline with rfl | rfl | rfl | hline
    · simp
    · exact OneLine.append (by simp [OneLine])
        (OneLine.intercalate fun s hs => (hnames s hs).harmless.oneLine)
    · simp
    · obtain ⟨e, he, hline⟩ := List.mem_flatMap.mp hline
      obtain ⟨hname, hdeps⟩ := h.mem_toList he
      exact oneLine_linesOf hname hdeps (fun d hd => h.reverse hd) line hline

end Makefile

end AnalysisDag

end NpmFollower.Analysis
