import NpmFollower.Analysis.MakeRules
import NpmFollower.Analysis.MakeShell
import NpmFollower.Library.Runs

/-! # Runs of the makefile

Goals are made one after the other, and those that make steps fail or are killed
anywhere. A script runs only when all that its step depends on is there, and a touch
file stands only for a step that is there, with no file older than those it needs.
-/

namespace NpmFollower.Analysis

open Std AnalysisDag Make

/-! ## What is there -/

/-- The objects of a step in the database. -/
inductive Presence where
  | absent
  | partly
  | whole
deriving DecidableEq

namespace AnalysisDag

/-- What the scripts have left of a step; the last one that concerns the step counts. -/
def presence (dag : AnalysisDag) (step : String) : List Event → Presence
  | [] => .absent
  | e :: log =>
    if (dag.getStepType step).map (buildScript step) = some e.script then
      if e.whole then .whole else .partly
    else if cleanScript step = e.script then if e.whole then .absent else .partly
    else presence dag step log

/-- A script makes a step when all that it depends on is there, and cleans a step that is there. -/
def Lawful (dag : AnalysisDag) : List Event → Prop
  | [] => True
  | e :: log => (∀ step, (dag.getStepType step).map (buildScript step) = some e.script →
      ∀ d ∈ dag.dependencies step, dag.presence d log = .whole) ∧
    (∀ step ∈ dag.steps, cleanScript step = e.script → dag.presence step log = .whole) ∧
    Lawful dag log

section Presence

variable {dag : AnalysisDag} {step step' : String} {stepType stepType' : StepType}
  {dependsOn : List String} {log : List Event} {whole : Bool}

theorem sqlFile_injective {directory : String} : Function.Injective (sqlFile directory) := by
  intro s s' h
  have hlist := congrArg String.toList h
  simp only [sqlFile, String.toList_append] at hlist
  exact String.toList_injective (List.append_cancel_left (List.append_cancel_right hlist))

theorem buildScript_ne_cleanScript : buildScript step stepType ≠ cleanScript step' := by
  cases stepType with
  | sql =>
    intro h
    have hhead := congrArg (fun t => t.toList.head?) (Script.psql.inj h)
    simp [sqlFile] at hhead
  | rust =>
    intro h
    cases h

theorem buildScript_inj (h : buildScript step stepType = buildScript step' stepType') :
    step = step' := by
  cases stepType <;> cases stepType'
  · exact sqlFile_injective (Script.psql.inj h)
  · cases h
  · cases h
  · exact Script.cargo.inj h

theorem cleanScript_injective : Function.Injective cleanScript := fun _ _ h =>
  sqlFile_injective (Script.psql.inj h)

theorem getStepType_eq (h : dag.steps[step]? = some (stepType, dependsOn)) :
    dag.getStepType step = some stepType := by
  rw [getStepType, h]
  rfl

theorem presence_build (h : dag.steps[step]? = some (stepType, dependsOn)) :
    dag.presence step' (⟨buildScript step stepType, whole⟩ :: log) =
      if step' = step then if whole then .whole else .partly else dag.presence step' log := by
  rw [presence]
  by_cases heq : step' = step
  · subst heq
    rw [getStepType_eq h, Option.map_some, if_pos rfl, if_pos rfl]
  · have hscript : (dag.getStepType step').map (buildScript step') ≠
        some (buildScript step stepType) := by
      intro hscript
      obtain ⟨type, -, htype⟩ := Option.map_eq_some_iff.mp hscript
      exact heq (buildScript_inj htype)
    rw [if_neg heq, if_neg hscript, if_neg fun hclean => buildScript_ne_cleanScript hclean.symm]

theorem presence_clean :
    dag.presence step' (⟨cleanScript step, whole⟩ :: log) =
      if step' = step then if whole then .absent else .partly else dag.presence step' log := by
  rw [presence, if_neg]
  · by_cases heq : step' = step
    · subst heq
      rw [if_pos rfl, if_pos rfl]
    · rw [if_neg heq, if_neg fun hscript => heq (cleanScript_injective hscript)]
  · intro hscript
    obtain ⟨type, -, htype⟩ := Option.map_eq_some_iff.mp hscript
    exact buildScript_ne_cleanScript htype

end Presence

end AnalysisDag

namespace MakeState

/-! ## What holds between the goals -/

/-- The touch file of the step is there. -/
def touched (st : MakeState) (step : String) : Bool := (st.files (touchFile step)).isSome

/-- A touch file stands for a step that is there, and is no older than those of its dependencies. -/
structure Safe (dag : AnalysisDag) (st : MakeState) : Prop where
  touched : ∀ step ∈ dag.steps, ∀ time, st.files (touchFile step) = some time →
    time ≤ st.clock ∧ dag.presence step st.log = .whole ∧
      ∀ d ∈ dag.dependencies step, ∃ time' ≤ time, st.files (touchFile d) = some time'
  lawful : dag.Lawful st.log

section Safe

variable {dag : AnalysisDag} {order : List String} {st st' : MakeState} {step : String}
  {stepType : StepType} {dependsOn : List String} {ok : Bool}

theorem touched_iff : st.touched step = true ↔ ∃ time, st.files (touchFile step) = some time :=
  Option.isSome_iff_exists

theorem touched_eq_false : st.touched step = false ↔ st.files (touchFile step) = none :=
  Option.isSome_eq_false_iff.trans Option.isNone_iff_eq_none

theorem Safe.of_outcomes (hs : st.Safe dag) (outcomes : List Outcome) :
    Safe dag { st with outcomes } :=
  ⟨hs.touched, hs.lawful⟩

theorem lawful_build (hs : st.Safe dag) (hstep : dag.steps[step]? = some (stepType, dependsOn))
    (hdeps : ∀ d ∈ dependsOn, d ∈ dag.steps ∧ st.touched d) (whole : Bool) :
    dag.Lawful (⟨buildScript step stepType, whole⟩ :: st.log) := by
  refine ⟨fun s hscript d hd => ?_, fun s _ hscript => ?_, hs.lawful⟩
  · obtain ⟨type, -, htype⟩ := Option.map_eq_some_iff.mp hscript
    obtain rfl := buildScript_inj htype
    rw [dependencies_eq hstep] at hd
    obtain ⟨hmem, htouched⟩ := hdeps d hd
    obtain ⟨time, htime⟩ := touched_iff.mp htouched
    exact (hs.touched d hmem time htime).2.1
  · exact absurd hscript.symm buildScript_ne_cleanScript

/-- The recipe of a touch file keeps what holds, where the dependencies are there. -/
theorem Safe.ran (hs : st.Safe dag) (hstep : dag.steps[step]? = some (stepType, dependsOn))
    (hnone : st.touched step = false) (hdeps : ∀ d ∈ dependsOn, d ∈ dag.steps ∧ st.touched d)
    (hran : Ran step stepType st (st', ok)) : st'.Safe dag := by
  have hother : ∀ x time, st.files (touchFile x) = some time → x ≠ step := by
    rintro x time htime rfl
    exact Option.some_ne_none time (htime.symm.trans (touched_eq_false.mp hnone))
  cases hran with
  | stopped hclock hfiles hlog =>
    refine ⟨fun x hx time htime => ?_, ?_⟩
    · rw [hfiles] at htime ⊢
      obtain ⟨hle, hwhole, hbefore⟩ := hs.touched x hx time htime
      refine ⟨hle.trans hclock, ?_, hbefore⟩
      rcases hlog with hlog | ⟨whole, hlog⟩
      · rwa [hlog]
      · rwa [hlog, presence_build hstep, if_neg (hother x time htime)]
    · rcases hlog with hlog | ⟨whole, hlog⟩
      · exact hlog ▸ hs.lawful
      · exact hlog ▸ lawful_build hs hstep hdeps whole
  | made hclock hfiles hlog =>
    have hsame : ∀ x time, st.files (touchFile x) = some time →
        st'.files (touchFile x) = some time := by
      intro x time htime
      rw [hfiles, Function.update_of_ne fun heq => hother x time htime (touchFile_injective heq)]
      exact htime
    refine ⟨fun x hx time htime => ?_, hlog ▸ lawful_build hs hstep hdeps true⟩
    rw [hlog, presence_build hstep]
    by_cases heq : x = step
    · subst heq
      rw [hfiles, Function.update_self] at htime
      cases htime
      refine ⟨le_rfl, by rw [if_pos rfl, if_pos rfl], fun d hd => ?_⟩
      rw [dependencies_eq hstep] at hd
      obtain ⟨hmem, htouched⟩ := hdeps d hd
      obtain ⟨time, htime⟩ := touched_iff.mp htouched
      exact ⟨time, (hs.touched d hmem time htime).1.trans hclock, hsame d time htime⟩
    · rw [hfiles, Function.update_of_ne fun hfile => heq (touchFile_injective hfile)] at htime
      obtain ⟨hle, hwhole, hbefore⟩ := hs.touched x hx time htime
      refine ⟨hle.trans hclock, by rwa [if_neg heq], fun d hd => ?_⟩
      obtain ⟨time', hle', htime'⟩ := hbefore d hd
      exact ⟨time', hle', hsame d time' htime'⟩

/-- The recipe that cleans a step keeps what holds, where nothing that depends on it is there. -/
theorem Safe.cleaned (hs : st.Safe dag) (hstep : dag.steps[step]? = some (stepType, dependsOn))
    (hrev : ∀ r ∈ dag.getReverseDependencies step, st.touched r = false)
    (hcleaned : Cleaned step st st') : st'.Safe dag := by
  refine ⟨fun x hx time htime => ?_, ?_⟩
  · rw [hcleaned.files] at htime ⊢
    have hne : x ≠ step := by
      rintro rfl
      rw [Function.update_self] at htime
      cases htime
    rw [Function.update_of_ne fun heq => hne (touchFile_injective heq)] at htime
    obtain ⟨hle, hwhole, hbefore⟩ := hs.touched x hx time htime
    refine ⟨hle.trans hcleaned.clock, ?_, fun d hd => ?_⟩
    · rw [hcleaned.log]
      split_ifs
      · rwa [presence_clean, if_neg hne]
      · exact hwhole
    · obtain ⟨time', hle', htime'⟩ := hbefore d hd
      refine ⟨time', hle', ?_⟩
      rw [Function.update_of_ne fun heq => ?_]
      · exact htime'
      · obtain ⟨type, deps, hxEq⟩ := mem_steps_iff.mp hx
        rw [dependencies_eq hxEq, touchFile_injective heq] at hd
        have huntouched := hrev x (mem_getReverseDependencies.mpr ⟨type, deps, hxEq, hd⟩)
        exact Option.some_ne_none time (htime.symm.trans (touched_eq_false.mp huntouched))
  · rw [hcleaned.log]
    split_ifs with htouched
    · refine ⟨fun s hscript => ?_, fun s hmem hscript => ?_, hs.lawful⟩
      · obtain ⟨type, -, htype⟩ := Option.map_eq_some_iff.mp hscript
        exact absurd htype buildScript_ne_cleanScript
      · obtain rfl := cleanScript_injective hscript
        obtain ⟨time, htime⟩ := Option.isSome_iff_exists.mp htouched
        exact (hs.touched s hmem time htime).2.1
    · exact hs.lawful

/-- A touch file that is there is left alone, and one that is not gets its recipe. -/
theorem build_touchFile (h : dag.Ordered order) (hs : st.Safe dag)
    (hstep : dag.steps[step]? = some (stepType, dependsOn)) :
    st.touched step = true ∧ build shell dag.rules (touchFile step) st = (st, true) ∨
      st.touched step = false ∧ Ran step stepType st (build shell dag.rules (touchFile step) st) := by
  rw [build, find_touchFile h.named hstep]
  simp only [outdated, touchRule, Bool.false_or]
  cases htouched : st.touched step with
  | true =>
    obtain ⟨time, htime⟩ := touched_iff.mp htouched
    have hbefore := (hs.touched step (mem_of_eq hstep) time htime).2.2
    rw [dependencies_eq hstep] at hbefore
    have hfresh : ((sorted dependsOn).map touchFile).any
        (fun p => (shell.modified st p).all fun time' => time < time') = false := by
      rw [List.any_eq_false]
      intro p hp
      obtain ⟨d, hd, rfl⟩ := List.mem_map.mp hp
      obtain ⟨time', hle, htime'⟩ := hbefore d (mem_sorted.mp hd)
      have hmodified : shell.modified st (touchFile d) = some time' := htime'
      simp [hmodified, hle]
    have hmodified : shell.modified st (touchFile step) = some time := htime
    rw [hmodified]
    simp only [hfresh]
    exact Or.inl ⟨trivial, rfl⟩
  | false =>
    have hmodified : shell.modified st (touchFile step) = none := touched_eq_false.mp htouched
    rw [hmodified]
    exact Or.inr ⟨rfl, ran_runRecipe⟩

theorem build_name (h : dag.Ordered order)
    (hstep : dag.steps[step]? = some (stepType, dependsOn)) :
    build shell dag.rules step st = (st, true) := by
  rw [build, find_name h.named hstep]
  rfl

theorem build_all (h : dag.Ordered order) : build shell dag.rules "all" st = (st, true) := by
  have hall : Make.find dag.rules "all" = some dag.allRule :=
    find_rule h.named (mem_rules_iff.mpr (Or.inl rfl))
  rw [build, hall]
  rfl

theorem cleaned_build (h : dag.Ordered order)
    (hstep : dag.steps[step]? = some (stepType, dependsOn))
    (hbuild : build shell dag.rules (cleanTarget step) st = (st', true)) : Cleaned step st st' := by
  rw [build, find_cleanTarget h.named hstep] at hbuild
  exact cleaned_runRecipe (h.named step stepType dependsOn hstep).1 hbuild

end Safe

/-! ## Any run -/

section Runs

variable {dag : AnalysisDag} {order : List String} {st st' : MakeState} {goal : String}
  {outcomes : List Outcome}

theorem touched_of_ran {step : String} {stepType : StepType}
    (hran : Ran step stepType st (st', true)) (x : String) :
    st'.touched x = if x = step then true else st.touched x := by
  cases hran with
  | made hclock hfiles hlog =>
    rw [touched, hfiles]
    by_cases heq : x = step
    · rw [heq, Function.update_self, if_pos rfl]
      rfl
    · rw [Function.update_of_ne fun hfile => heq (touchFile_injective hfile), if_neg heq]
      rfl

theorem touched_of_cleaned {step : String} (hcleaned : Cleaned step st st') (x : String) :
    st'.touched x = if x = step then false else st.touched x := by
  rw [touched, hcleaned.files]
  by_cases heq : x = step
  · rw [heq, Function.update_self, if_pos rfl]
    rfl
  · rw [Function.update_of_ne fun hfile => heq (touchFile_injective hfile), if_neg heq]
    rfl

/-- The files that must be there once the targets are done. -/
def Touched (dag : AnalysisDag) (done : List String) (st : MakeState) : Prop :=
  ∀ x ∈ dag.steps, touchFile x ∈ done → st.touched x = true

/-- The files that must be gone once the targets are done. -/
def Untouched (dag : AnalysisDag) (done : List String) (st : MakeState) : Prop :=
  ∀ x ∈ dag.steps, cleanTarget x ∈ done → st.touched x = false

theorem safe_build (h : dag.Ordered order) {done : List String} {t : String} {ok : Bool}
    (horder : InOrder (Make.prereqs dag.rules) (done ++ [t])) (ht : BuildTarget dag t)
    (hs : st.Safe dag) (hdone : Touched dag done st)
    (hbuild : build shell dag.rules t st = (st', ok)) :
    st'.Safe dag ∧ (ok = true → Touched dag (done ++ [t]) st') := by
  have hnotFile : ∀ s, StepName s ∨ s = "all" → ∀ x, touchFile x ≠ s := by
    rintro s (hname | rfl) x
    · exact touchFile_ne hname
    · exact fun heq => absurd (heq ▸ @slash_mem_touchFile x) (by decide)
  have hsame : (∀ x, touchFile x ≠ t) → (st, true) = (st', ok) →
      st'.Safe dag ∧ (ok = true → Touched dag (done ++ [t]) st') := by
    rintro hne heq
    cases heq
    refine ⟨hs, fun _ x hx hmem => ?_⟩
    rcases List.mem_append.mp hmem with hmem | hmem
    · exact hdone x hx hmem
    · exact absurd (List.mem_singleton.mp hmem) (hne x)
  rcases ht with rfl | ⟨step, hmem, rfl | rfl⟩
  · exact hsame (hnotFile _ (Or.inr rfl)) ((build_all h).symm.trans hbuild)
  · obtain ⟨type, deps, hstep⟩ := mem_steps_iff.mp hmem
    exact hsame (hnotFile _ (Or.inl (h.named _ _ _ hstep).1)) ((build_name h hstep).symm.trans hbuild)
  · obtain ⟨type, deps, hstep⟩ := mem_steps_iff.mp hmem
    have hdeps : ∀ d ∈ deps, d ∈ dag.steps ∧ st.touched d = true := fun d hd =>
      have hd := deps_done h hstep horder d hd
      ⟨hd.1, hdone d hd.1 hd.2⟩
    rcases build_touchFile h hs hstep with ⟨htouched, hleft⟩ | ⟨huntouched, hran⟩
    · cases hleft.symm.trans hbuild
      refine ⟨hs, fun _ x hx hmem => ?_⟩
      rcases List.mem_append.mp hmem with hmem | hmem
      · exact hdone x hx hmem
      · exact touchFile_injective (List.mem_singleton.mp hmem) ▸ htouched
    · rw [hbuild] at hran
      refine ⟨hs.ran hstep huntouched hdeps hran, fun hok x hx hmem => ?_⟩
      subst hok
      rw [touched_of_ran hran]
      split_ifs with heq
      · rfl
      · rcases List.mem_append.mp hmem with hmem | hmem
        · exact hdone x hx hmem
        · exact absurd (touchFile_injective (List.mem_singleton.mp hmem)) heq

theorem safe_clean (h : dag.Ordered order) {done : List String} {t : String}
    (horder : InOrder (Make.prereqs dag.rules) (done ++ [t])) (ht : CleanGoal dag t)
    (hs : st.Safe dag) (hdone : Untouched dag done st)
    (hbuild : build shell dag.rules t st = (st', true)) :
    st'.Safe dag ∧ Untouched dag (done ++ [t]) st' := by
  obtain ⟨step, hmem, rfl⟩ := ht
  obtain ⟨type, deps, hstep⟩ := mem_steps_iff.mp hmem
  have hcleaned := cleaned_build h hstep hbuild
  refine ⟨hs.cleaned hstep (fun r hr => ?_) hcleaned, fun x hx hmem => ?_⟩
  · obtain ⟨hr, hrDone⟩ := reverse_done h hstep horder r hr
    exact hdone r hr hrDone
  · rw [touched_of_cleaned hcleaned]
    split_ifs with heq
    · rfl
    · rcases List.mem_append.mp hmem with hmem | hmem
      · exact hdone x hx hmem
      · exact absurd (cleanTarget_injective (List.mem_singleton.mp hmem)) heq

theorem safe_invoke_build (h : dag.Ordered order) (hs : st.Safe dag) (hgoal : BuildTarget dag goal) :
    Safe dag (st.invoke dag.rules goal outcomes).1 := by
  obtain ⟨hinOrder, hneeds⟩ := targets_spec h goal
  have hall := buildAll_rule (fun done s => s.Safe dag ∧ Touched dag done s) (fun s => s.Safe dag)
    hinOrder ⟨hs.of_outcomes outcomes, fun _ _ hx => absurd hx List.not_mem_nil⟩
    (fun horder ht hI hbuild =>
      have hsafe := safe_build h horder
        (needs_induction hgoal (buildTarget_prereq h) ((hneeds _).mp ht)) hI.1 hI.2 hbuild
      ⟨hsafe.1, hsafe.2 rfl⟩)
    fun horder ht hI hbuild => (safe_build h horder
      (needs_induction hgoal (buildTarget_prereq h) ((hneeds _).mp ht)) hI.1 hI.2 hbuild).1
  rw [invoke, make_eq]
  split_ifs at hall
  · exact hall.1
  · exact hall

theorem safe_invoke_clean (h : dag.Ordered order) (hs : st.Safe dag) (hgoal : CleanGoal dag goal)
    (hok : (st.invoke dag.rules goal outcomes).2 = true) :
    Safe dag (st.invoke dag.rules goal outcomes).1 := by
  obtain ⟨hinOrder, hneeds⟩ := targets_spec h goal
  have hall := buildAll_rule (fun done s => s.Safe dag ∧ Untouched dag done s) (fun _ => True)
    hinOrder ⟨hs.of_outcomes outcomes, fun _ _ hx => absurd hx List.not_mem_nil⟩
    (fun horder ht hI hbuild => safe_clean h horder
      (needs_induction hgoal (cleanGoal_prereq h) ((hneeds _).mp ht)) hI.1 hI.2 hbuild)
    fun _ _ _ _ => trivial
  rw [invoke, make_eq] at hok ⊢
  rw [if_pos hok] at hall
  exact hall.1

/-- A goal without a rule changes nothing. -/
theorem invoke_other (hfind : Make.find dag.rules goal = none) :
    (st.invoke dag.rules goal outcomes).1 = { st with outcomes } := by
  have hprereqs : Make.prereqs dag.rules goal = [] := by
    rw [Make.prereqs, hfind]
    rfl
  have hvisit : visit (Make.prereqs dag.rules) (dag.rules.length + 1) goal [] = [goal] := by
    rw [visit, if_neg List.not_mem_nil, hprereqs]
    rfl
  rw [invoke, make_eq, hvisit, buildAll, build, hfind]
  cases (shell.modified _ goal).isSome <;> rfl

theorem goal_cases (goal : String) :
    BuildTarget dag goal ∨ CleanGoal dag goal ∨ Make.find dag.rules goal = none := by
  cases hfind : Make.find dag.rules goal with
  | none => exact Or.inr (Or.inr rfl)
  | some rule =>
    have htarget : rule.target = goal := by simpa using List.find?_some hfind
    rcases mem_rules_iff.mp (List.mem_of_find?_eq_some hfind) with
      rfl | ⟨s, type, deps, hs, rfl | rfl | rfl⟩
    · exact Or.inl (Or.inl htarget.symm)
    · exact Or.inl (Or.inr ⟨s, mem_of_eq hs, Or.inr htarget.symm⟩)
    · exact Or.inl (Or.inr ⟨s, mem_of_eq hs, Or.inl htarget.symm⟩)
    · exact Or.inr (Or.inl ⟨s, mem_of_eq hs, htarget.symm⟩)

end Runs

end MakeState

/-! ## Goals one after the other -/

structure Invocation where
  goal : String
  outcomes : List Outcome

def makeStep (rules : List (Rule String String)) (st : MakeState) (a : Invocation) :
    Option MakeState :=
  some (st.invoke rules a.goal a.outcomes).1

/-- A goal that cleans is not broken off. -/
def CleansWhole (dag : AnalysisDag) (rules : List (Rule String String)) (st : MakeState)
    (a : Invocation) : Prop :=
  AnalysisDag.CleanGoal dag a.goal → (st.invoke rules a.goal a.outcomes).2 = true

end NpmFollower.Analysis
