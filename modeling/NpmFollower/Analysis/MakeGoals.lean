import NpmFollower.Analysis.MakeRuns

/-! # What a goal does

Where no goal fails, the touch files are those of the steps that are there. A goal
then runs the scripts of what it needs and is missing, each once, and a goal that
cleans runs those of what depends on the step and is there.
-/

namespace NpmFollower.Analysis

open Std AnalysisDag Make

namespace AnalysisDag

/-- Each script comes to its end; it makes a step that is not there, and cleans a step when
nothing that depends on it is there. -/
def Exact (dag : AnalysisDag) : List Event → Prop
  | [] => True
  | e :: log => e.whole = true ∧
    (∀ step, (dag.getStepType step).map (buildScript step) = some e.script →
      dag.presence step log = .absent) ∧
    (∀ step ∈ dag.steps, cleanScript step = e.script →
      ∀ r ∈ dag.getReverseDependencies step, dag.presence r log = .absent) ∧
    Exact dag log

end AnalysisDag

namespace MakeState

/-- The steps that are there are those with touch files. -/
structure Settled (dag : AnalysisDag) (st : MakeState) : Prop where
  safe : st.Safe dag
  exact : dag.Exact st.log
  present : ∀ step ∈ dag.steps,
    dag.presence step st.log = if st.touched step then .whole else .absent

/-- A goal has dealt with the steps of the targets done: those that were as before have run their
scripts. -/
structure Swept (dag : AnalysisDag) (target : String → String) (script : String → Option Script)
    (before : Bool) (st : MakeState) (done : List String) (st' : MakeState) : Prop where
  settled : st'.Settled dag
  log : ∃ ran : List String, ran.Nodup ∧
    (∀ s, s ∈ ran ↔ s ∈ dag.steps ∧ target s ∈ done ∧ st.touched s = before) ∧
    st'.log = (ran.filterMap fun s => (script s).map fun c => ⟨c, true⟩).reverse ++ st.log
  touched : ∀ s ∈ dag.steps, st'.touched s = if target s ∈ done then !before else st.touched s

section Goal

variable {dag : AnalysisDag} {order : List String} {st st₁ st₂ : MakeState} {step goal t : String}
  {stepType : StepType} {dependsOn done : List String} {outcomes : List Outcome}

theorem Settled.ran (hs : st.Settled dag) (hstep : dag.steps[step]? = some (stepType, dependsOn))
    (hnone : st.touched step = false) (hdeps : ∀ d ∈ dependsOn, d ∈ dag.steps ∧ st.touched d)
    (hran : Ran step stepType st (st₁, true)) : st₁.Settled dag := by
  have hlog : st₁.log = ⟨buildScript step stepType, true⟩ :: st.log := by
    cases hran with
    | made _ _ hlog => exact hlog
  refine ⟨hs.safe.ran hstep hnone hdeps hran, ?_, fun x hx => ?_⟩
  · rw [hlog]
    refine ⟨rfl, fun s hscript => ?_, fun s _ hscript => ?_, hs.exact⟩
    · obtain ⟨type, -, htype⟩ := Option.map_eq_some_iff.mp hscript
      obtain rfl := buildScript_inj htype
      rw [hs.present s (mem_of_eq hstep), hnone]
      rfl
    · exact absurd hscript.symm buildScript_ne_cleanScript
  · rw [hlog, presence_build hstep, touched_of_ran hran]
    by_cases heq : x = step
    · rw [if_pos heq, if_pos heq]
      rfl
    · rw [if_neg heq, if_neg heq]
      exact hs.present x hx

theorem Settled.cleaned (hs : st.Settled dag)
    (hstep : dag.steps[step]? = some (stepType, dependsOn))
    (hrev : ∀ r ∈ dag.getReverseDependencies step, st.touched r = false)
    (hcleaned : Cleaned step st st₁) : st₁.Settled dag := by
  refine ⟨hs.safe.cleaned hstep hrev hcleaned, ?_, fun x hx => ?_⟩
  · rw [hcleaned.log]
    split_ifs with htouched
    · refine ⟨rfl, fun s hscript => ?_, fun s _ hscript r hr => ?_, hs.exact⟩
      · obtain ⟨type, -, htype⟩ := Option.map_eq_some_iff.mp hscript
        exact absurd htype buildScript_ne_cleanScript
      · obtain rfl := cleanScript_injective hscript
        rw [hs.present r (mem_of_mem_reverse hr), hrev r hr]
        rfl
    · exact hs.exact
  · rw [hcleaned.log, touched_of_cleaned hcleaned]
    by_cases heq : x = step
    · rw [if_pos heq, if_neg Bool.false_ne_true]
      split_ifs with htouched
      · rw [presence_clean, if_pos heq]
        rfl
      · rw [hs.present x hx, heq, touched, if_neg htouched]
    · rw [if_neg heq, ← hs.present x hx]
      split_ifs
      · rw [presence_clean, if_neg heq]
      · rfl

section Swept

variable {target : String → String} {script : String → Option Script} {before : Bool}

theorem Swept.start (hs : st.Settled dag) (outcomes : List Outcome) :
    Swept dag target script before st [] { st with outcomes } :=
  ⟨⟨hs.safe.of_outcomes outcomes, hs.exact, hs.present⟩,
    ⟨[], List.nodup_nil, fun s => by simp, rfl⟩, fun _ _ => (if_neg List.not_mem_nil).symm⟩

/-- A target that is for no step changes nothing. -/
theorem Swept.skip (h : Swept dag target script before st done st₁)
    (hne : ∀ s ∈ dag.steps, target s ≠ t) :
    Swept dag target script before st (done ++ [t]) st₁ := by
  have hmem : ∀ s ∈ dag.steps, (target s ∈ done ++ [t] ↔ target s ∈ done) := fun s hs => by
    simp [hne s hs]
  obtain ⟨ran, hnodup, hran, hlog⟩ := h.log
  refine ⟨h.settled, ⟨ran, hnodup, fun s => (hran s).trans ?_, hlog⟩, fun s hs => ?_⟩
  · exact and_congr_right fun hs => by rw [hmem s hs]
  · rw [h.touched s hs]
    simp only [hmem s hs]

/-- One more step, whose script runs if it was as before. -/
theorem Swept.next (h : Swept dag target script before st done st₁)
    (hinj : Function.Injective target) (hstep : step ∈ dag.steps) (hfresh : target step ∉ done)
    (hsettled : st₂.Settled dag) {c : Script} (hscript : script step = some c)
    (hlog : st₂.log = if st₁.touched step = before then ⟨c, true⟩ :: st₁.log else st₁.log)
    (htouched : ∀ x, st₂.touched x = if x = step then !before else st₁.touched x) :
    Swept dag target script before st (done ++ [target step]) st₂ := by
  have hsame : st₁.touched step = st.touched step := by
    rw [h.touched step hstep, if_neg hfresh]
  have hmem : ∀ s, target s ∈ done ++ [target step] ↔ target s ∈ done ∨ s = step := fun s => by
    simp [hinj.eq_iff]
  obtain ⟨ran, hnodup, hran, hranLog⟩ := h.log
  refine ⟨hsettled, ?_, fun s hs => ?_⟩
  · by_cases hbefore : st.touched step = before
    · refine ⟨ran ++ [step], ?_, fun s => ?_, ?_⟩
      · exact List.nodup_append_comm.mp
          (List.nodup_cons.mpr ⟨fun hmem => hfresh ((hran step).mp hmem).2.1, hnodup⟩)
      · rw [List.mem_append, List.mem_singleton, hran, hmem]
        constructor
        · rintro (⟨hs, hdone, hb⟩ | rfl)
          · exact ⟨hs, Or.inl hdone, hb⟩
          · exact ⟨hstep, Or.inr rfl, hbefore⟩
        · rintro ⟨hs, hdone | rfl, hb⟩
          · exact Or.inl ⟨hs, hdone, hb⟩
          · exact Or.inr rfl
      · rw [hlog, if_pos (hsame.trans hbefore), hranLog, List.filterMap_append, List.reverse_append]
        simp [hscript]
    · refine ⟨ran, hnodup, fun s => ?_, ?_⟩
      · rw [hran, hmem]
        constructor
        · exact fun hs => ⟨hs.1, Or.inl hs.2.1, hs.2.2⟩
        · rintro ⟨hs, hdone | rfl, hb⟩
          · exact ⟨hs, hdone, hb⟩
          · exact absurd hb hbefore
      · rw [hlog, if_neg fun heq => hbefore (hsame.symm.trans heq), hranLog]
  · rw [htouched, h.touched s hs]
    simp only [hmem]
    split_ifs <;> simp_all

end Swept

/-- The script that makes the step. -/
def scriptOf (dag : AnalysisDag) (step : String) : Option Script :=
  (dag.getStepType step).map (buildScript step)

theorem swept_build (h : dag.Ordered order)
    (horder : InOrder (Make.prereqs dag.rules) (done ++ [t])) (ht : BuildTarget dag t)
    (hI : Swept dag touchFile (scriptOf dag) false st done st₁)
    (hbuild : build shell dag.rules t st₁ = (st₂, true)) :
    Swept dag touchFile (scriptOf dag) false st (done ++ [t]) st₂ := by
  rcases ht with rfl | ⟨step, hmem, rfl | rfl⟩
  · cases (build_all h).symm.trans hbuild
    exact hI.skip fun s _ heq => absurd (heq ▸ @slash_mem_touchFile s) (by decide)
  · obtain ⟨type, deps, hstep⟩ := mem_steps_iff.mp hmem
    cases (build_name h hstep).symm.trans hbuild
    exact hI.skip fun s _ => touchFile_ne (h.named _ _ _ hstep).1
  · obtain ⟨type, deps, hstep⟩ := mem_steps_iff.mp hmem
    have hscript : scriptOf dag step = some (buildScript step type) := by
      rw [scriptOf, getStepType_eq hstep, Option.map_some]
    have hfresh := (InOrder.concat_iff.mp horder).2.1
    rcases build_touchFile h hI.settled.safe hstep with ⟨htouched, hleft⟩ | ⟨huntouched, hran⟩
    · cases hleft.symm.trans hbuild
      refine hI.next touchFile_injective hmem hfresh hI.settled hscript ?_ fun x => ?_
      · rw [htouched, if_neg Bool.true_eq_false_eq_False]
      · split_ifs with heq
        · exact heq ▸ htouched
        · rfl
    · rw [hbuild] at hran
      have hdeps : ∀ d ∈ deps, d ∈ dag.steps ∧ st₁.touched d = true := fun d hd => by
        obtain ⟨hd, hdDone⟩ := deps_done h hstep horder d hd
        exact ⟨hd, by rw [hI.touched d hd, if_pos hdDone]; rfl⟩
      refine hI.next touchFile_injective hmem hfresh
        (hI.settled.ran hstep huntouched hdeps hran) hscript ?_ (touched_of_ran hran)
      cases hran with
      | made _ _ hlog => rw [huntouched, if_pos rfl, hlog]

theorem swept_clean (h : dag.Ordered order)
    (horder : InOrder (Make.prereqs dag.rules) (done ++ [t])) (ht : CleanGoal dag t)
    (hI : Swept dag cleanTarget (fun s => some (cleanScript s)) true st done st₁)
    (hbuild : build shell dag.rules t st₁ = (st₂, true)) :
    Swept dag cleanTarget (fun s => some (cleanScript s)) true st (done ++ [t]) st₂ := by
  obtain ⟨step, hmem, rfl⟩ := ht
  obtain ⟨type, deps, hstep⟩ := mem_steps_iff.mp hmem
  have hcleaned := cleaned_build h hstep hbuild
  have hrev : ∀ r ∈ dag.getReverseDependencies step, st₁.touched r = false := fun r hr => by
    obtain ⟨hr, hrDone⟩ := reverse_done h hstep horder r hr
    rw [hI.touched r hr, if_pos hrDone]
    rfl
  exact hI.next cleanTarget_injective hmem (InOrder.concat_iff.mp horder).2.1
    (hI.settled.cleaned hstep hrev hcleaned) rfl hcleaned.log (touched_of_cleaned hcleaned)

section Invoke

variable (h : dag.Ordered order) (hs : st.Settled dag)
  (hok : (st.invoke dag.rules goal outcomes).2 = true)
include h hs hok

theorem swept_invoke_build (hgoal : BuildTarget dag goal) :
    Swept dag touchFile (scriptOf dag) false st
      (visit (Make.prereqs dag.rules) (dag.rules.length + 1) goal [])
      (st.invoke dag.rules goal outcomes).1 := by
  obtain ⟨hinOrder, hneeds⟩ := targets_spec h goal
  have hall := buildAll_rule (Swept dag touchFile (scriptOf dag) false st) (fun _ => True) hinOrder
    (Swept.start hs outcomes)
    (fun horder ht hI hbuild => swept_build h horder
      (needs_induction hgoal (buildTarget_prereq h) ((hneeds _).mp ht)) hI hbuild)
    fun _ _ _ _ => trivial
  rw [invoke, make_eq] at hok ⊢
  rwa [if_pos hok] at hall

theorem swept_invoke_clean (hgoal : CleanGoal dag goal) :
    Swept dag cleanTarget (fun s => some (cleanScript s)) true st
      (visit (Make.prereqs dag.rules) (dag.rules.length + 1) goal [])
      (st.invoke dag.rules goal outcomes).1 := by
  obtain ⟨hinOrder, hneeds⟩ := targets_spec h goal
  have hall := buildAll_rule (Swept dag cleanTarget (fun s => some (cleanScript s)) true st)
    (fun _ => True) hinOrder (Swept.start hs outcomes)
    (fun horder ht hI hbuild => swept_clean h horder
      (needs_induction hgoal (cleanGoal_prereq h) ((hneeds _).mp ht)) hI hbuild)
    fun _ _ _ _ => trivial
  rw [invoke, make_eq] at hok ⊢
  rwa [if_pos hok] at hall

end Invoke

/-! ## Goals that come to their end -/

theorem recipe_readable (h : dag.Named) {rule : Rule String String} (hrule : rule ∈ dag.rules) :
    rule.recipe.length ≤ 2 ∧ ∀ line ∈ rule.recipe, (Command.read line).isSome := by
  rcases mem_rules_iff.mp hrule with rfl | ⟨s, type, deps, hs, rfl | rfl | rfl⟩
  · exact ⟨Nat.zero_le _, fun _ hline => absurd hline List.not_mem_nil⟩
  · refine ⟨le_rfl, fun line hline => ?_⟩
    simp only [touchRule, List.mem_cons, List.not_mem_nil, or_false] at hline
    rcases hline with rfl | rfl
    · rw [read_generateShellCmd]
      rfl
    · rw [read_touch]
      rfl
  · exact ⟨Nat.zero_le _, fun _ hline => absurd hline List.not_mem_nil⟩
  · refine ⟨le_rfl, fun line hline => ?_⟩
    simp only [cleanRule, List.mem_cons, List.not_mem_nil, or_false] at hline
    rcases hline with rfl | rfl
    · rw [read_cleanLine (h s _ _ hs).1]
      rfl
    · rw [read_rm]
      rfl

theorem Good.mono {n m : ℕ} (h : Good m outcomes) (hnm : n ≤ m) : Good n outcomes :=
  ⟨hnm.trans h.1, h.2⟩

theorem build_good (h : dag.Named) {rule : Rule String String} (hrule : rule ∈ dag.rules) {n : ℕ}
    (hgood : Good (n + 2) st.outcomes) :
    ∃ st', build shell dag.rules rule.target st = (st', true) ∧ Good n st'.outcomes := by
  obtain ⟨hlength, hread⟩ := recipe_readable h hrule
  rw [build, find_rule h hrule]
  dsimp only
  split_ifs
  · exact runRecipe_good hread (hgood.mono (Nat.add_le_add_left hlength n))
  · exact ⟨st, rfl, hgood.mono (Nat.le_add_right _ _)⟩

theorem buildAll_good (h : dag.Named) {ts : List String}
    (hts : ∀ t ∈ ts, ∃ rule ∈ dag.rules, rule.target = t) (hgood : Good (2 * ts.length) st.outcomes) :
    (buildAll shell dag.rules ts st).2 = true := by
  induction ts generalizing st with
  | nil => rfl
  | cons t ts ih =>
    obtain ⟨rule, hrule, rfl⟩ := hts t List.mem_cons_self
    obtain ⟨st', hbuild, hgood'⟩ := build_good h hrule (n := 2 * ts.length) hgood
    rw [buildAll, hbuild]
    exact ih (fun t ht => hts t (List.mem_cons_of_mem _ ht)) hgood'

theorem exists_rule (ht : BuildTarget dag t ∨ CleanGoal dag t) :
    ∃ rule ∈ dag.rules, rule.target = t := by
  rcases ht with (rfl | ⟨step, hstep, rfl | rfl⟩) | ⟨step, hstep, rfl⟩
  · exact ⟨dag.allRule, mem_rules_iff.mpr (Or.inl rfl), rfl⟩
  all_goals obtain ⟨type, deps, hstep⟩ := mem_steps_iff.mp hstep
  · exact ⟨nameRule t, mem_rules_iff.mpr (Or.inr ⟨t, type, deps, hstep, Or.inr (Or.inl rfl)⟩), rfl⟩
  · exact ⟨touchRule step type deps,
      mem_rules_iff.mpr (Or.inr ⟨step, type, deps, hstep, Or.inl rfl⟩), rfl⟩
  · exact ⟨dag.cleanRule step,
      mem_rules_iff.mpr (Or.inr ⟨step, type, deps, hstep, Or.inr (Or.inr rfl)⟩), rfl⟩

/-- A goal comes to its end when no command fails. -/
theorem invoke_good (st : MakeState) (h : dag.Ordered order)
    (hgoal : BuildTarget dag goal ∨ CleanGoal dag goal)
    (hgood : Good (2 * dag.rules.length) outcomes) :
    (st.invoke dag.rules goal outcomes).2 = true := by
  obtain ⟨hinOrder, hneeds⟩ := targets_spec h goal
  have hkind : ∀ t ∈ visit (Make.prereqs dag.rules) (dag.rules.length + 1) goal [],
      ∃ rule ∈ dag.rules, rule.target = t := fun t ht =>
    exists_rule (hgoal.imp
      (fun hb => needs_induction hb (buildTarget_prereq h) ((hneeds t).mp ht))
      fun hc => needs_induction hc (cleanGoal_prereq h) ((hneeds t).mp ht))
  have hsub : visit (Make.prereqs dag.rules) (dag.rules.length + 1) goal [] ⊆
      dag.rules.map Rule.target := fun t ht => List.mem_map.mpr (hkind t ht)
  have hlength := (hinOrder.nodup.subperm hsub).length_le
  rw [List.length_map] at hlength
  rw [invoke, make_eq]
  exact buildAll_good h.named hkind (hgood.mono (Nat.mul_le_mul_left 2 hlength))

/-! ## What a goal needs -/

/-- The steps that a goal needs. -/
def Wanted (dag : AnalysisDag) (goal step : String) : Prop :=
  step ∈ dag.steps ∧ (goal = "all" ∨ Needs dag.dependencies goal step)

theorem needs_touchFile (h : dag.Ordered order) (hstep : step ∈ dag.steps) {t : String} :
    Needs (Make.prereqs dag.rules) (touchFile step) t ↔
      ∃ s, Needs dag.dependencies step s ∧ touchFile s = t := by
  refine needs_image (P := (· ∈ dag.steps)) (fun a ha b hb => mem_of_mem_dependencies h ha hb)
    (fun a ha p => ?_) hstep
  obtain ⟨type, deps, ha⟩ := mem_steps_iff.mp ha
  rw [mem_prereqs_touchFile h.named ha, dependencies_eq ha]

theorem needs_cleanTarget (h : dag.Ordered order) (hstep : step ∈ dag.steps) {t : String} :
    Needs (Make.prereqs dag.rules) (cleanTarget step) t ↔
      ∃ s, Needs dag.dependencies s step ∧ cleanTarget s = t := by
  have himage : Needs (Make.prereqs dag.rules) (cleanTarget step) t ↔
      ∃ s, Needs dag.getReverseDependencies step s ∧ cleanTarget s = t := by
    refine needs_image (P := (· ∈ dag.steps)) (fun a _ b hb => mem_of_mem_reverse hb)
      (fun a ha p => ?_) hstep
    obtain ⟨type, deps, ha⟩ := mem_steps_iff.mp ha
    exact mem_prereqs_cleanTarget h.named ha
  rw [himage]
  refine exists_congr fun s => and_congr_left fun _ => ?_
  rw [Needs, Needs, ← Relation.reflTransGen_swap]
  refine Iff.of_eq (congrArg (fun r => Relation.ReflTransGen r s step) ?_)
  funext a b
  exact propext mem_reverse_iff

theorem needs_goal (h : dag.Ordered order) (hgoal : goal = "all" ∨ goal ∈ dag.steps)
    (hstep : step ∈ dag.steps) :
    Needs (Make.prereqs dag.rules) goal (touchFile step) ↔ Wanted dag goal step := by
  have hname : ∀ g ∈ dag.steps, (Needs (Make.prereqs dag.rules) g (touchFile step) ↔
      Needs dag.dependencies g step) := by
    intro g hg
    obtain ⟨type, deps, hgEq⟩ := mem_steps_iff.mp hg
    have hfirst : touchFile g ∈ Make.prereqs dag.rules g := by
      rw [prereqs_name h.named hgEq]
      exact List.mem_singleton_self _
    constructor
    · intro hneeds
      rcases Relation.ReflTransGen.cases_head hneeds with heq | ⟨q, hq, hqNeeds⟩
      · exact absurd heq.symm (touchFile_ne (h.named _ _ _ hgEq).1)
      · rw [prereqs_name h.named hgEq, List.mem_singleton] at hq
        subst hq
        obtain ⟨s, hs, heq⟩ := (needs_touchFile h hg).mp hqNeeds
        exact touchFile_injective heq ▸ hs
    · exact fun hneeds => ((needs_touchFile h hg).mpr ⟨step, hneeds, rfl⟩).head hfirst
  rcases hgoal with rfl | hg
  · refine iff_of_true ?_ ⟨hstep, Or.inl rfl⟩
    have hfirst : step ∈ Make.prereqs dag.rules "all" := by
      rw [prereqs_all h.named]
      exact ExtTreeMap.mem_keys.mpr hstep
    exact ((hname step hstep).mpr .refl).head hfirst
  · obtain ⟨type, deps, hgEq⟩ := mem_steps_iff.mp hg
    rw [hname goal hg, Wanted, or_iff_right (h.named _ _ _ hgEq).1.notAll]
    exact (and_iff_right hstep).symm

end Goal

end MakeState

/-- No goal fails. -/
def Succeeds (rules : List (Rule String String)) (st : MakeState) (a : Invocation) : Prop :=
  (st.invoke rules a.goal a.outcomes).2 = true

/-- In any run of goals that succeed, a step is there exactly when its touch file is, each script
makes what is missing, and cleans what nothing that is there depends on. The next goal, when no
command fails, comes to its end: it runs the scripts of all steps that it needs and are missing,
each once, and nothing else, or it cleans the step and all that depends on it, as far as it is
there, each once, and nothing else. -/
theorem make_exact {dag : AnalysisDag} {order : List String} {text : String}
    {rules : List (Rule String String)} {st : MakeState} {outcomes : List Outcome}
    (h : dag.Ordered order) (htext : dag.makefile = some text)
    (hread : Make.read text = some rules)
    (hreach : Runs.Reach (makeStep rules) (Succeeds rules) MakeState.initial st)
    (hgood : MakeState.Good (2 * rules.length) outcomes) :
    dag.Exact st.log ∧ dag.Lawful st.log ∧
    (∀ step ∈ dag.steps, dag.presence step st.log = if st.touched step then .whole else .absent) ∧
    (∀ goal, goal = "all" ∨ goal ∈ dag.steps → ∃ (st' : MakeState) (made : List String),
      st.invoke rules goal outcomes = (st', true) ∧ made.Nodup ∧
      (∀ s, s ∈ made ↔ MakeState.Wanted dag goal s ∧ st.touched s = false) ∧
      st'.log = (made.filterMap fun s => (MakeState.scriptOf dag s).map fun c => ⟨c, true⟩).reverse ++
        st.log ∧
      ∀ s ∈ dag.steps, st'.touched s = true ↔ st.touched s = true ∨ MakeState.Wanted dag goal s) ∧
    ∀ step ∈ dag.steps, ∃ (st' : MakeState) (gone : List String),
      st.invoke rules (cleanTarget step) outcomes = (st', true) ∧ gone.Nodup ∧
      (∀ s, s ∈ gone ↔ s ∈ dag.steps ∧ Needs dag.dependencies s step ∧ st.touched s = true) ∧
      st'.log = (gone.map fun s => ⟨cleanScript s, true⟩).reverse ++ st.log ∧
      ∀ s ∈ dag.steps, st'.touched s = true ↔
        st.touched s = true ∧ ¬ Needs dag.dependencies s step := by
  cases (read_makefile h.named htext).symm.trans hread
  have hs : st.Settled dag := by
    refine hreach.invariant ⟨⟨(fun _ _ _ htime => nomatch htime), trivial⟩, trivial, fun _ _ => rfl⟩ ?_
    rintro s ⟨goal, outcomes⟩ s' hs hok hstep
    cases hstep
    rcases MakeState.goal_cases goal with hgoal | hgoal | hfind
    · exact (MakeState.swept_invoke_build h hs hok hgoal).settled
    · exact (MakeState.swept_invoke_clean h hs hok hgoal).settled
    · rw [MakeState.invoke_other hfind]
      exact ⟨hs.safe.of_outcomes outcomes, hs.exact, hs.present⟩
  refine ⟨hs.exact, hs.safe.lawful, hs.present, fun goal hgoal => ?_, fun step hstep => ?_⟩
  · have htarget : BuildTarget dag goal := hgoal.imp id fun hg => ⟨goal, hg, Or.inl rfl⟩
    have hok := MakeState.invoke_good st h (Or.inl htarget) hgood
    have hswept := MakeState.swept_invoke_build h hs hok htarget
    have hneeds := (targets_spec h goal).2
    obtain ⟨made, hnodup, hmade, hlog⟩ := hswept.log
    refine ⟨_, made, Prod.ext rfl hok, hnodup, fun s => ?_, hlog, fun s hsMem => ?_⟩
    · rw [hmade, hneeds]
      constructor
      · exact fun ⟨hsMem, hneed, htouched⟩ => ⟨(MakeState.needs_goal h hgoal hsMem).mp hneed, htouched⟩
      · exact fun ⟨hwanted, htouched⟩ =>
          ⟨hwanted.1, (MakeState.needs_goal h hgoal hwanted.1).mpr hwanted, htouched⟩
    · have hiff := (hneeds _).trans (MakeState.needs_goal h hgoal hsMem)
      rw [hswept.touched s hsMem, ← hiff]
      split_ifs with hmem
      · exact iff_of_true rfl (Or.inr hmem)
      · exact (or_iff_left hmem).symm
  · have htarget : CleanGoal dag (cleanTarget step) := ⟨step, hstep, rfl⟩
    have hok := MakeState.invoke_good st h (Or.inr htarget) hgood
    have hswept := MakeState.swept_invoke_clean h hs hok htarget
    have hneeds : ∀ s, cleanTarget s ∈ visit (Make.prereqs dag.rules) (dag.rules.length + 1)
        (cleanTarget step) [] ↔ Needs dag.dependencies s step := by
      intro s
      rw [(targets_spec h _).2, MakeState.needs_cleanTarget h hstep]
      exact ⟨fun ⟨x, hx, heq⟩ => cleanTarget_injective heq ▸ hx, fun hx => ⟨s, hx, rfl⟩⟩
    obtain ⟨gone, hnodup, hgone, hlog⟩ := hswept.log
    refine ⟨_, gone, Prod.ext rfl hok, hnodup, fun s => ?_, ?_, fun s hsMem => ?_⟩
    · rw [hgone, hneeds]
    · simpa using hlog
    · rw [hswept.touched s hsMem, ← hneeds]
      split_ifs with hmem
      · exact iff_of_false Bool.false_ne_true fun hkept => hkept.2 hmem
      · exact (and_iff_left hmem).symm

/-- The whole analysis is made from nothing. -/
theorem make_exact_all : ∃ text rules st, analysisDag.makefile = some text ∧
    Make.read text = some rules ∧
    MakeState.initial.invoke rules "all" (List.replicate (2 * rules.length) ⟨1, .succeeds⟩) =
      (st, true) ∧ ∀ s ∈ analysisDag.steps, st.touched s = true := by
  obtain ⟨text, htext⟩ := makefile_analysisDag
  have hread := read_makefile ordered_analysisDag.named htext
  have hgood : MakeState.Good (2 * analysisDag.rules.length)
      (List.replicate (2 * analysisDag.rules.length) ⟨1, .succeeds⟩) :=
    ⟨by simp, fun o ho => by rw [List.eq_of_mem_replicate ho]⟩
  obtain ⟨st, made, hst, -, -, -, htouched⟩ :=
    (make_exact ordered_analysisDag htext hread .start hgood).2.2.2.1 "all" (Or.inl rfl)
  exact ⟨text, _, st, htext, hread, hst, fun s hs => (htouched s hs).mpr (Or.inr ⟨hs, Or.inl rfl⟩)⟩

end NpmFollower.Analysis
