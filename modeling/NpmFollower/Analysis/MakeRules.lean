import NpmFollower.Analysis.AnalysisDag

/-! # The rules of the makefile

Each target has one rule. Where the steps can be put in an order in which each comes
after what it depends on, no target needs itself, and make comes to its end for every
goal. A goal that makes steps needs only such goals, and so does one that cleans.
-/

namespace NpmFollower.Analysis

open Std AnalysisDag Make

namespace AnalysisDag

/-- What a step depends on. -/
def dependencies (dag : AnalysisDag) (step : String) : List String :=
  (dag.getDependencies step).getD []

/-- The steps can be put in an order in which each comes after what it depends on. -/
structure Ordered (dag : AnalysisDag) (order : List String) : Prop where
  named : dag.Named
  mem_iff : ∀ step, step ∈ order ↔ step ∈ dag.steps
  inOrder : InOrder dag.dependencies order

section Rules

variable {dag : AnalysisDag} {order : List String} {step : String} {stepType : StepType}
  {dependsOn : List String}

theorem mem_steps_iff : step ∈ dag.steps ↔ ∃ type deps, dag.steps[step]? = some (type, deps) := by
  rw [ExtTreeMap.mem_iff_isSome_getElem?, Option.isSome_iff_exists]
  simp

theorem mem_of_eq (h : dag.steps[step]? = some (stepType, dependsOn)) : step ∈ dag.steps :=
  mem_steps_iff.mpr ⟨stepType, dependsOn, h⟩

theorem dependencies_eq (h : dag.steps[step]? = some (stepType, dependsOn)) :
    dag.dependencies step = dependsOn := by
  rw [dependencies, getDependencies, h]
  rfl

/-- What a rule of the makefile is. -/
theorem mem_rules_iff {rule : Rule String String} : rule ∈ dag.rules ↔ rule = dag.allRule ∨
    ∃ step type deps, dag.steps[step]? = some (type, deps) ∧
      (rule = touchRule step type deps ∨ rule = nameRule step ∨ rule = dag.cleanRule step) := by
  simp only [rules, List.mem_cons, List.mem_flatMap, Prod.exists, stepRules,
    ExtTreeMap.mem_toList_iff_getElem?_eq_some, List.not_mem_nil, or_false]

/-- No two rules are for one target. -/
theorem rule_unique (h : dag.Named) : ∀ rule ∈ dag.rules, ∀ rule' ∈ dag.rules,
    rule.target = rule'.target → rule = rule' := by
  intro rule hrule rule' hrule' htarget
  have hall : ∀ s, "all" ≠ touchFile s := fun s heq =>
    absurd (heq ▸ @slash_mem_touchFile s) (by decide)
  have hclean : ∀ s, "all" ≠ cleanTarget s := fun s heq => by
    have hhead := congrArg (fun t => t.toList.head?) heq
    simp [cleanTarget] at hhead
  rcases mem_rules_iff.mp hrule with rfl | ⟨s, type, deps, hs, hcases⟩
  · rcases mem_rules_iff.mp hrule' with rfl | ⟨s', type', deps', hs', rfl | rfl | rfl⟩
    · rfl
    · exact absurd htarget (hall s')
    · exact absurd htarget.symm (h s' _ _ hs').1.notAll
    · exact absurd htarget (hclean s')
  · have hname := (h s _ _ hs).1
    rcases mem_rules_iff.mp hrule' with rfl | ⟨s', type', deps', hs', hcases'⟩
    · rcases hcases with rfl | rfl | rfl
      · exact absurd htarget.symm (hall s)
      · exact absurd htarget hname.notAll
      · exact absurd htarget.symm (hclean s)
    · have hname' := (h s' _ _ hs').1
      rcases hcases with rfl | rfl | rfl <;> rcases hcases' with rfl | rfl | rfl
      · obtain rfl := touchFile_injective htarget
        cases hs.symm.trans hs'
        rfl
      · exact absurd htarget (touchFile_ne hname')
      · exact absurd htarget (touchFile_ne_cleanTarget hname')
      · exact absurd htarget.symm (touchFile_ne hname)
      · exact congrArg nameRule htarget
      · exact absurd htarget.symm (cleanTarget_ne hname)
      · exact absurd htarget.symm (touchFile_ne_cleanTarget hname)
      · exact absurd htarget (cleanTarget_ne hname')
      · exact congrArg dag.cleanRule (cleanTarget_injective htarget)

theorem find_rule (h : dag.Named) {rule : Rule String String} (hrule : rule ∈ dag.rules) :
    Make.find dag.rules rule.target = some rule := by
  cases hfind : Make.find dag.rules rule.target with
  | none => simpa using List.find?_eq_none.mp hfind rule hrule
  | some rule' =>
    have htarget : rule'.target = rule.target := by simpa using List.find?_some hfind
    rw [rule_unique h rule' (List.mem_of_find?_eq_some hfind) rule hrule htarget]

theorem prereqs_rule (h : dag.Named) {rule : Rule String String} (hrule : rule ∈ dag.rules) :
    Make.prereqs dag.rules rule.target = rule.prereqs := by
  rw [Make.prereqs, find_rule h hrule]
  rfl

section Step

variable (h : dag.Named) (hstep : dag.steps[step]? = some (stepType, dependsOn))
include h hstep

theorem find_touchFile : Make.find dag.rules (touchFile step) =
    some (touchRule step stepType dependsOn) :=
  find_rule h (mem_rules_iff.mpr (Or.inr ⟨step, stepType, dependsOn, hstep, Or.inl rfl⟩))

theorem find_name : Make.find dag.rules step = some (nameRule step) :=
  find_rule h (mem_rules_iff.mpr (Or.inr ⟨step, stepType, dependsOn, hstep, Or.inr (Or.inl rfl)⟩))

theorem find_cleanTarget : Make.find dag.rules (cleanTarget step) = some (dag.cleanRule step) :=
  find_rule h (mem_rules_iff.mpr (Or.inr ⟨step, stepType, dependsOn, hstep, Or.inr (Or.inr rfl)⟩))

theorem mem_prereqs_touchFile {p : String} : p ∈ Make.prereqs dag.rules (touchFile step) ↔
    ∃ d ∈ dependsOn, touchFile d = p := by
  rw [Make.prereqs, find_touchFile h hstep]
  simp [touchRule, mem_sorted]

theorem mem_prereqs_cleanTarget {p : String} : p ∈ Make.prereqs dag.rules (cleanTarget step) ↔
    ∃ r ∈ dag.getReverseDependencies step, cleanTarget r = p := by
  rw [Make.prereqs, find_cleanTarget h hstep]
  simp [cleanRule, mem_sorted]

theorem prereqs_name : Make.prereqs dag.rules step = [touchFile step] := by
  rw [Make.prereqs, find_name h hstep]
  rfl

end Step

theorem prereqs_all (h : dag.Named) : Make.prereqs dag.rules "all" = dag.getAllStepNames :=
  prereqs_rule h (mem_rules_iff.mpr (Or.inl rfl))

/-! ### How deep the targets are -/

theorem Ordered.steps (h : dag.Ordered order) (hstep : step ∈ order) :
    ∃ type deps, dag.steps[step]? = some (type, deps) :=
  mem_steps_iff.mp ((h.mem_iff step).mp hstep)

theorem within_touchFile (h : dag.Ordered order) {done : List String}
    (hdone : InOrder dag.dependencies done) (hsub : done ⊆ order) :
    ∀ s ∈ done, Within (Make.prereqs dag.rules) done.length (touchFile s) := by
  induction hdone with
  | nil => exact fun s hs => absurd hs List.not_mem_nil
  | @concat done t rest fresh after ih =>
    have ih := ih fun s hs => hsub (List.mem_append_left _ hs)
    intro s hs
    rw [List.length_append, List.length_singleton]
    rcases List.mem_append.mp hs with hs | hs
    · exact (ih s hs).mono (Nat.le_succ _)
    · rw [List.mem_singleton.mp hs]
      obtain ⟨type, deps, ht⟩ := h.steps (hsub (List.mem_append_right _ (List.mem_singleton_self t)))
      refine .intro fun p hp => ?_
      obtain ⟨d, hd, rfl⟩ := (mem_prereqs_touchFile h.named ht).mp hp
      exact ih d (after (dependencies_eq ht ▸ hd))

theorem within_cleanTarget (h : dag.Ordered order) {done rest : List String}
    (horder : order = done ++ rest) :
    ∀ s ∈ rest, Within (Make.prereqs dag.rules) rest.length (cleanTarget s) := by
  induction rest generalizing done with
  | nil => exact fun s hs => absurd hs List.not_mem_nil
  | cons t rest ih =>
    have ih := @ih (done ++ [t]) (by rw [horder, List.append_assoc]; rfl)
    intro s hs
    rcases List.mem_cons.mp hs with rfl | hs
    · obtain ⟨type, deps, ht⟩ :=
        h.steps (horder ▸ List.mem_append_right _ List.mem_cons_self)
      refine .intro fun p hp => ?_
      obtain ⟨r, hr, rfl⟩ := (mem_prereqs_cleanTarget h.named ht).mp hp
      obtain ⟨type', deps', hr', hmem⟩ := mem_getReverseDependencies.mp hr
      have hneeds : s ∈ dag.dependencies r := by rwa [dependencies_eq hr']
      have hinOrder : InOrder dag.dependencies ((done ++ [s]) ++ rest) := by
        rw [List.append_assoc]
        exact horder ▸ h.inOrder
      have hfirst := InOrder.concat_iff.mp hinOrder.of_append
      have hrOrder : r ∈ done ++ s :: rest :=
        horder ▸ (h.mem_iff r).mpr (mem_steps_iff.mpr ⟨type', deps', hr'⟩)
      rcases List.mem_append.mp hrOrder with hrDone | hrRest
      · exact absurd (hfirst.1.closed hrDone hneeds) hfirst.2.1
      · rcases List.mem_cons.mp hrRest with rfl | hrRest
        · exact absurd (hfirst.2.2 hneeds) hfirst.2.1
        · exact ih r hrRest
    · exact (ih s hs).mono (Nat.le_succ _)

theorem length_order_le (h : dag.Ordered order) : order.length + 1 ≤ dag.rules.length := by
  have hsub : order ⊆ dag.steps.keys := fun s hs => ExtTreeMap.mem_keys.mpr ((h.mem_iff s).mp hs)
  have hlength := (h.inOrder.nodup.subperm hsub).length_le
  rw [← ExtTreeMap.map_fst_toList_eq_keys, List.length_map] at hlength
  have hflat : (dag.steps.toList.flatMap dag.stepRules).length = dag.steps.toList.length * 3 := by
    have hthree : ∀ e ∈ dag.steps.toList, (dag.stepRules e).length = 3 := fun _ _ => rfl
    rw [List.length_flatMap, List.map_congr_left hthree, List.map_const', List.sum_replicate,
      smul_eq_mul]
  rw [rules, List.length_cons, hflat]
  omega

/-- The fuel of make is enough for every goal. -/
theorem within_goal (h : dag.Ordered order) (goal : String) :
    Within (Make.prereqs dag.rules) (dag.rules.length + 1) goal := by
  have hlength := length_order_le h
  have htouch : ∀ s ∈ order, Within (Make.prereqs dag.rules) order.length (touchFile s) :=
    within_touchFile h h.inOrder (List.Subset.refl _)
  have hname : ∀ s ∈ order, Within (Make.prereqs dag.rules) (order.length + 1) s := by
    intro s hs
    obtain ⟨type, deps, hstep⟩ := h.steps hs
    refine .intro fun p hp => ?_
    rw [prereqs_name h.named hstep, List.mem_singleton] at hp
    exact hp ▸ htouch s hs
  cases hfind : Make.find dag.rules goal with
  | none =>
    refine .intro fun p hp => ?_
    rw [Make.prereqs, hfind] at hp
    exact absurd hp List.not_mem_nil
  | some rule =>
    have htarget : rule.target = goal := by simpa using List.find?_some hfind
    have hmem : ∀ s type deps, dag.steps[s]? = some (type, deps) → s ∈ order :=
      fun s type deps hs => (h.mem_iff s).mpr (mem_steps_iff.mpr ⟨type, deps, hs⟩)
    rcases mem_rules_iff.mp (List.mem_of_find?_eq_some hfind) with
      rfl | ⟨s, type, deps, hs, rfl | rfl | rfl⟩
    · obtain rfl : "all" = goal := htarget
      refine Within.mono (.intro fun p hp => ?_) (Nat.succ_le_succ hlength)
      rw [prereqs_all h.named] at hp
      exact hname p ((h.mem_iff p).mpr (ExtTreeMap.mem_keys.mp hp))
    · exact htarget ▸ (htouch s (hmem s _ _ hs)).mono (by omega)
    · exact htarget ▸ (hname s (hmem s _ _ hs)).mono (by omega)
    · exact htarget ▸ (within_cleanTarget h (List.nil_append _).symm s (hmem s _ _ hs)).mono (by omega)

end Rules

/-! ## The targets of a goal -/

section Goals

variable {dag : AnalysisDag} {order : List String} {step t p goal : String}

/-- The goals that make steps. -/
def BuildTarget (dag : AnalysisDag) (t : String) : Prop :=
  t = "all" ∨ ∃ step ∈ dag.steps, t = step ∨ t = touchFile step

/-- The goals that clean steps. -/
def CleanGoal (dag : AnalysisDag) (t : String) : Prop := ∃ step ∈ dag.steps, t = cleanTarget step

theorem mem_of_mem_dependencies (h : dag.Ordered order) {d : String} (hstep : step ∈ dag.steps)
    (hd : d ∈ dag.dependencies step) : d ∈ dag.steps :=
  (h.mem_iff d).mp (h.inOrder.closed ((h.mem_iff step).mpr hstep) hd)

theorem mem_of_mem_reverse {r : String} (hr : r ∈ dag.getReverseDependencies step) :
    r ∈ dag.steps := by
  obtain ⟨type, deps, hr, -⟩ := mem_getReverseDependencies.mp hr
  exact mem_of_eq hr

theorem mem_reverse_iff {r : String} :
    r ∈ dag.getReverseDependencies step ↔ step ∈ dag.dependencies r := by
  rw [mem_getReverseDependencies]
  constructor
  · rintro ⟨type, deps, hr, hmem⟩
    rwa [dependencies_eq hr]
  · intro hmem
    cases hr : dag.steps[r]? with
    | none =>
      rw [dependencies, getDependencies, hr] at hmem
      exact absurd hmem List.not_mem_nil
    | some e => exact ⟨e.1, e.2, rfl, by rwa [dependencies_eq hr] at hmem⟩

theorem buildTarget_prereq (h : dag.Ordered order) (ht : BuildTarget dag t)
    (hp : p ∈ Make.prereqs dag.rules t) : BuildTarget dag p := by
  rcases ht with rfl | ⟨step, hstep, rfl | rfl⟩
  · rw [prereqs_all h.named] at hp
    exact Or.inr ⟨p, ExtTreeMap.mem_keys.mp hp, Or.inl rfl⟩
  · obtain ⟨type, deps, hs⟩ := mem_steps_iff.mp hstep
    rw [prereqs_name h.named hs, List.mem_singleton] at hp
    exact Or.inr ⟨t, hstep, Or.inr hp⟩
  · obtain ⟨type, deps, hs⟩ := mem_steps_iff.mp hstep
    obtain ⟨d, hd, rfl⟩ := (mem_prereqs_touchFile h.named hs).mp hp
    exact Or.inr ⟨d, mem_of_mem_dependencies h hstep (dependencies_eq hs ▸ hd), Or.inr rfl⟩

theorem cleanGoal_prereq (h : dag.Ordered order) (ht : CleanGoal dag t)
    (hp : p ∈ Make.prereqs dag.rules t) : CleanGoal dag p := by
  obtain ⟨step, hstep, rfl⟩ := ht
  obtain ⟨type, deps, hs⟩ := mem_steps_iff.mp hstep
  obtain ⟨r, hr, rfl⟩ := (mem_prereqs_cleanTarget h.named hs).mp hp
  exact ⟨r, mem_of_mem_reverse hr, rfl⟩

/-- What holds of a goal and passes on to what is needed holds of all targets of the goal. -/
theorem needs_induction {P : String → Prop} (hgoal : P goal)
    (hstep : ∀ {t p}, P t → p ∈ Make.prereqs dag.rules t → P p)
    (hneeds : Needs (Make.prereqs dag.rules) goal t) : P t := by
  induction hneeds with
  | refl => exact hgoal
  | tail _ hp ih => exact hstep ih hp

theorem targets_spec (h : dag.Ordered order) (goal : String) :
    InOrder (Make.prereqs dag.rules)
      (visit (Make.prereqs dag.rules) (dag.rules.length + 1) goal []) ∧
    ∀ t, t ∈ visit (Make.prereqs dag.rules) (dag.rules.length + 1) goal [] ↔
      Needs (Make.prereqs dag.rules) goal t :=
  visit_nil_spec (within_goal h goal)

/-- The dependencies are done before a touch file. -/
theorem deps_done (h : dag.Ordered order) {type : StepType} {deps done : List String}
    (hs : dag.steps[step]? = some (type, deps))
    (horder : InOrder (Make.prereqs dag.rules) (done ++ [touchFile step])) :
    ∀ d ∈ deps, d ∈ dag.steps ∧ touchFile d ∈ done := fun d hd =>
  ⟨mem_of_mem_dependencies h (mem_of_eq hs) (dependencies_eq hs ▸ hd),
    (InOrder.concat_iff.mp horder).2.2 ((mem_prereqs_touchFile h.named hs).mpr ⟨d, hd, rfl⟩)⟩

/-- What depends on a step is cleaned before it. -/
theorem reverse_done (h : dag.Ordered order) {type : StepType} {deps done : List String}
    (hs : dag.steps[step]? = some (type, deps))
    (horder : InOrder (Make.prereqs dag.rules) (done ++ [cleanTarget step])) :
    ∀ r ∈ dag.getReverseDependencies step, r ∈ dag.steps ∧ cleanTarget r ∈ done := fun r hr =>
  ⟨mem_of_mem_reverse hr,
    (InOrder.concat_iff.mp horder).2.2 ((mem_prereqs_cleanTarget h.named hs).mpr ⟨r, hr, rfl⟩)⟩

end Goals

/-- The steps of the analysis are added in such an order. -/
theorem ordered_analysisDag :
    analysisDag.Ordered (analysisSteps.map fun e => e.1.name) := by
  have hnames : analysisDag.steps.toList.all (fun e =>
      decide (StepName e.1) && e.2.2.all fun d => decide (StepName d)) = true := by
    decide +kernel
  have hkeys : (analysisSteps.all fun e => analysisDag.steps.contains e.1.name) = true ∧
      (analysisDag.steps.keys.all fun s =>
        (analysisSteps.map fun e => e.1.name).contains s) = true := by
    decide +kernel
  have horder : inOrderFrom analysisDag.dependencies [] (analysisSteps.map fun e => e.1.name) =
      true := by
    decide +kernel
  refine ⟨fun step type deps hstep => ?_, fun step => ⟨fun hmem => ?_, fun hmem => ?_⟩,
    InOrder.of_inOrderFrom .nil horder⟩
  · have hentry := List.all_eq_true.mp hnames (step, type, deps)
      (ExtTreeMap.mem_toList_iff_getElem?_eq_some.mpr hstep)
    rw [Bool.and_eq_true, List.all_eq_true] at hentry
    exact ⟨of_decide_eq_true hentry.1, fun d hd => of_decide_eq_true (hentry.2 d hd)⟩
  · obtain ⟨e, he, rfl⟩ := List.mem_map.mp hmem
    exact ExtTreeMap.mem_iff_contains.mpr (List.all_eq_true.mp hkeys.1 e he)
  · exact List.contains_iff_mem.mp (List.all_eq_true.mp hkeys.2 step (ExtTreeMap.mem_keys.mpr hmem))

theorem makefile_analysisDag : ∃ text, analysisDag.makefile = some text := by
  have hclosed : analysisDag.assertClosure = true := by decide +kernel
  rw [makefile, if_pos hclosed]
  simp only [mapM_stepLines, Option.bind_eq_bind, Option.bind_some]
  exact ⟨_, rfl⟩

end AnalysisDag

end NpmFollower.Analysis
