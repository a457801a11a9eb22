import NpmFollower.Analysis.AnalysisDag

/-! # The shell under the makefile

What the commands of a recipe do to the touch files and to the database, of which the
scripts that have run are kept. A script fails halfway or is refused, and make is
killed between any two commands. The shell reads each line that the makefile has.
-/

namespace NpmFollower.Analysis

open Std AnalysisDag Make

/-! ## The commands of a recipe -/

inductive Script where
  | psql (file : String)
  | cargo (bin : String)
deriving DecidableEq

inductive Command where
  | script (s : Script)
  | touch (file : String)
  | ifFile (file sql : String)
  | rm (file : String)

def psqlPrefix : String := psqlCommand ++ " "

/-- The shell reads the lines that the makefile has. -/
def Command.read (line : String) : Option Command :=
  let line := line.toList
  ((line.dropPrefix? psqlPrefix.toList).map fun file => .script (.psql (String.ofList file))) <|>
  ((line.dropPrefix? "cd rust; cargo run --release --bin ".toList).map fun bin =>
    .script (.cargo (String.ofList bin))) <|>
  ((line.dropPrefix? "touch ".toList).map fun file => .touch (String.ofList file)) <|>
  ((line.dropPrefix? "rm -f ".toList).map fun file => .rm (String.ofList file)) <|>
  do
    let rest ← line.dropPrefix? "if [ -f ".toList
    let file := rest.takeWhile (· ≠ ' ')
    let rest ← (rest.dropWhile (· ≠ ' ')).dropPrefix? (" ]; then " ++ psqlPrefix).toList
    let sql := rest.takeWhile (· ≠ ';')
    if rest.dropWhile (· ≠ ';') = "; else true; fi".toList then
      some (.ifFile (String.ofList file) (String.ofList sql))
    else none

/-- A script that is refused leaves all as it was. -/
inductive Result where
  | succeeds
  | refused
  | halfway
deriving DecidableEq

structure Outcome where
  elapsed : ℕ
  result : Result

structure Event where
  script : Script
  whole : Bool
deriving DecidableEq

/-- The files of `makefile_state` with their times, the scripts that have run, the last one first,
and what will come of the commands; without an outcome make is killed. -/
structure MakeState where
  files : String → Option ℕ
  clock : ℕ
  log : List Event
  outcomes : List Outcome

namespace MakeState

def runScript (script : Script) (st : MakeState) : Result → MakeState × Bool
  | .succeeds => ({ st with log := ⟨script, true⟩ :: st.log }, true)
  | .refused => (st, false)
  | .halfway => ({ st with log := ⟨script, false⟩ :: st.log }, false)

def runCommand (st : MakeState) (result : Result) : Command → MakeState × Bool
  | .script script => st.runScript script result
  | .touch file =>
    if result = .succeeds then
      ({ st with files := Function.update st.files file (some st.clock) }, true)
    else (st, false)
  | .ifFile file sql => if (st.files file).isSome then st.runScript (.psql sql) result else (st, true)
  | .rm file =>
    if result = .succeeds then ({ st with files := Function.update st.files file none }, true)
    else (st, false)

def exec (line : String) (st : MakeState) : MakeState × Bool :=
  match st.outcomes with
  | [] => (st, false)
  | o :: outcomes =>
    let st := { st with clock := st.clock + o.elapsed, outcomes }
    match Command.read line with
    | some command => st.runCommand o.result command
    | none => (st, false)

def shell : Make.Shell String String MakeState := ⟨MakeState.files, exec⟩

/-- `make` with a goal. -/
def invoke (rules : List (Make.Rule String String)) (goal : String) (outcomes : List Outcome)
    (st : MakeState) : MakeState × Bool :=
  Make.make shell rules goal { st with outcomes }

def initial : MakeState := ⟨fun _ => none, 0, [], []⟩

end MakeState

/-! ## Reading the recipes -/

section Read

variable {step : String}

/-- The script that makes the step. -/
def buildScript (step : String) : StepType → Script
  | .sql => .psql (sqlFile "sql" step)
  | .rust => .cargo step

def cleanScript (step : String) : Script := .psql (sqlFile "clean" step)

theorem dropPrefix_append (a b : List Char) : (a ++ b).dropPrefix? a = some b :=
  List.dropPrefix?_append_of_beq b (by simp)

theorem generateShellCmd_sql : StepType.generateShellCmd step .sql =
    psqlCommand ++ " sql/" ++ step ++ ".sql" := rfl

theorem generateShellCmd_rust : StepType.generateShellCmd step .rust =
    "cd rust; cargo run --release --bin " ++ step := rfl

theorem read_generateShellCmd (stepType : StepType) :
    Command.read (stepType.generateShellCmd step) = some (.script (buildScript step stepType)) := by
  cases stepType with
  | sql =>
    have hdirectory : " sql/".toList = " ".toList ++ ("sql".toList ++ "/".toList) := by simp
    have htext : (psqlCommand ++ " sql/" ++ step ++ ".sql").toList =
        psqlPrefix.toList ++ (sqlFile "sql" step).toList := by
      simp only [psqlPrefix, sqlFile, String.toList_append, hdirectory, List.append_assoc]
    rw [generateShellCmd_sql, Command.read, htext, dropPrefix_append, Option.map_some,
      String.ofList_toList]
    rfl
  | rust =>
    have htext : ("cd rust; cargo run --release --bin " ++ step).toList =
        "cd rust; cargo run --release --bin ".toList ++ step.toList := String.toList_append
    have hpsql : ("cd rust; cargo run --release --bin ".toList ++ step.toList).dropPrefix?
        psqlPrefix.toList = none := by
      simp [psqlPrefix, psqlCommand, List.dropPrefix?]
    rw [generateShellCmd_rust, Command.read, htext, hpsql, dropPrefix_append, Option.map_some,
      String.ofList_toList]
    rfl

theorem read_touch (file : String) : Command.read ("touch " ++ file) = some (.touch file) := by
  have htext : ("touch " ++ file).toList = "touch ".toList ++ file.toList := String.toList_append
  have hpsql : ("touch ".toList ++ file.toList).dropPrefix? psqlPrefix.toList = none := by
    simp [psqlPrefix, psqlCommand, List.dropPrefix?]
  have hcargo : ("touch ".toList ++ file.toList).dropPrefix?
      "cd rust; cargo run --release --bin ".toList = none := by
    simp [List.dropPrefix?]
  rw [Command.read, htext, hpsql, hcargo, dropPrefix_append, Option.map_some, String.ofList_toList]
  rfl

theorem read_rm (file : String) : Command.read ("rm -f " ++ file) = some (.rm file) := by
  have htext : ("rm -f " ++ file).toList = "rm -f ".toList ++ file.toList := String.toList_append
  have hpsql : ("rm -f ".toList ++ file.toList).dropPrefix? psqlPrefix.toList = none := by
    simp [psqlPrefix, psqlCommand, List.dropPrefix?]
  have hcargo : ("rm -f ".toList ++ file.toList).dropPrefix?
      "cd rust; cargo run --release --bin ".toList = none := by
    simp [List.dropPrefix?]
  have htouch : ("rm -f ".toList ++ file.toList).dropPrefix? "touch ".toList = none := by
    simp [List.dropPrefix?]
  rw [Command.read, htext, hpsql, hcargo, htouch, dropPrefix_append, Option.map_some,
    String.ofList_toList]
  rfl

theorem read_cleanLine (h : StepName step) :
    Command.read (cleanLine step) = some (.ifFile (touchFile step) (sqlFile "clean" step)) := by
  have hthen : (" ]; then " ++ psqlPrefix).toList = ' ' :: ("]; then " ++ psqlPrefix).toList := by
    simp
  have hend : "; else true; fi".toList = ';' :: " else true; fi".toList := by simp
  have htext : (cleanLine step).toList = "if [ -f ".toList ++ ((touchFile step).toList ++
      ((" ]; then " ++ psqlPrefix).toList ++ ((sqlFile "clean" step).toList ++
        "; else true; fi".toList))) := by
    simp only [cleanLine, psqlPrefix, String.toList_append, List.append_assoc]
  have hfile : ' ' ∉ (touchFile step).toList := fun hmem => (harmless_touchFile h _ hmem).1 rfl
  have hsql : ';' ∉ (sqlFile "clean" step).toList := by
    have hname : ';' ∉ step.toList := fun hmem => nameChar_ne (h.chars _ hmem) (by decide) rfl
    simpa [sqlFile] using hname
  have hnone : ∀ text : String, text.toList.head? ≠ some 'i' → text ≠ "" →
      (cleanLine step).toList.dropPrefix? text.toList = none := by
    intro text hhead hne
    obtain ⟨c, cs, hcons⟩ := List.exists_cons_of_ne_nil fun hnil => hne (String.toList_eq_nil_iff.mp hnil)
    rw [hcons] at hhead ⊢
    have hi : ('i' == c) = false := beq_false_of_ne fun heq => hhead (congrArg some heq.symm)
    have hif : "if [ -f ".toList = 'i' :: "f [ -f ".toList := by simp
    rw [htext, hif, List.cons_append, List.dropPrefix?, hi]
    rfl
  rw [Command.read, hnone psqlPrefix (by decide) (by decide),
    hnone "cd rust; cargo run --release --bin " (by simp) (by decide),
    hnone "touch " (by simp) (by decide), hnone "rm -f " (by simp) (by decide), htext,
    dropPrefix_append, hthen]
  simp only [Option.map_none, Option.bind_eq_bind, Option.bind_some, List.cons_append]
  rw [Make.takeWhile_append_cons hfile, Make.dropWhile_append_cons hfile, ← List.cons_append,
    dropPrefix_append, Option.bind_some, hend, Make.takeWhile_append_cons hsql,
    Make.dropWhile_append_cons hsql, if_pos rfl, String.ofList_toList, String.ofList_toList]
  rfl

end Read

/-! ## What a recipe does -/

namespace MakeState

/-- All commands to come succeed, and there are outcomes for so many. -/
def Good (n : ℕ) (outcomes : List Outcome) : Prop :=
  n ≤ outcomes.length ∧ ∀ o ∈ outcomes, o.result = .succeeds

/-- What the recipe of a touch file does: all of it, or at most its script. -/
inductive Ran (step : String) (stepType : StepType) (st : MakeState) : MakeState × Bool → Prop where
  | stopped {st' : MakeState} (hclock : st.clock ≤ st'.clock) (hfiles : st'.files = st.files)
      (hlog : st'.log = st.log ∨ ∃ whole, st'.log = ⟨buildScript step stepType, whole⟩ :: st.log) :
      Ran step stepType st (st', false)
  | made {st' : MakeState} (hclock : st.clock ≤ st'.clock)
      (hfiles : st'.files = Function.update st.files (touchFile step) (some st'.clock))
      (hlog : st'.log = ⟨buildScript step stepType, true⟩ :: st.log) :
      Ran step stepType st (st', true)

/-- What the recipe that cleans a step does when it comes to its end. -/
structure Cleaned (step : String) (st st' : MakeState) : Prop where
  clock : st.clock ≤ st'.clock
  files : st'.files = Function.update st.files (touchFile step) none
  log : st'.log = if (st.files (touchFile step)).isSome then ⟨cleanScript step, true⟩ :: st.log
    else st.log

section Recipe

variable {st : MakeState} {n : ℕ} {step : String} {stepType : StepType}

theorem exec_cons {line : String} {command : Command} (hread : Command.read line = some command)
    {o : Outcome} {outcomes : List Outcome} (ho : st.outcomes = o :: outcomes) :
    exec line st =
      runCommand { st with clock := st.clock + o.elapsed, outcomes } o.result command := by
  rw [exec, ho]
  simp only [hread]

theorem exec_nil {line : String} (ho : st.outcomes = []) : exec line st = (st, false) := by
  rw [exec, ho]

theorem Good.cons {o : Outcome} {outcomes : List Outcome} (h : Good (n + 1) (o :: outcomes)) :
    o.result = .succeeds ∧ Good n outcomes :=
  ⟨h.2 o List.mem_cons_self, Nat.le_of_succ_le_succ h.1, fun o' ho' =>
    h.2 o' (List.mem_cons_of_mem _ ho')⟩

theorem ran_runRecipe :
    Ran step stepType st
      (runRecipe shell [stepType.generateShellCmd step, "touch " ++ touchFile step] st) := by
  rw [runRecipe]
  cases ho : st.outcomes with
  | nil =>
    simp only [shell, exec_nil ho]
    exact .stopped le_rfl rfl (Or.inl rfl)
  | cons o outcomes =>
    simp only [shell, exec_cons (read_generateShellCmd stepType) ho, runCommand]
    cases hresult : o.result with
    | refused => exact .stopped (Nat.le_add_right _ _) rfl (Or.inl rfl)
    | halfway => exact .stopped (Nat.le_add_right _ _) rfl (Or.inr ⟨false, rfl⟩)
    | succeeds =>
      simp only [runScript, runRecipe]
      cases outcomes with
      | nil => exact .stopped (Nat.le_add_right _ _) rfl (Or.inr ⟨true, rfl⟩)
      | cons o' outcomes =>
        rw [exec_cons (read_touch _) rfl, runCommand]
        split_ifs with hdone
        · refine .made ?_ rfl rfl
          dsimp only
          omega
        · refine .stopped ?_ rfl (Or.inr ⟨true, rfl⟩)
          dsimp only
          omega

theorem cleaned_runRecipe (hstep : StepName step) {st' : MakeState}
    (h : runRecipe shell [cleanLine step, "rm -f " ++ touchFile step] st = (st', true)) :
    Cleaned step st st' := by
  rw [runRecipe] at h
  cases ho : st.outcomes with
  | nil =>
    simp only [shell, exec_nil ho] at h
    cases h
  | cons o outcomes =>
    simp only [shell, exec_cons (read_cleanLine hstep) ho, runCommand] at h
    have hrm : ∀ {log : List Event}, runRecipe shell ["rm -f " ++ touchFile step]
        ⟨st.files, st.clock + o.elapsed, log, outcomes⟩ = (st', true) →
          st.clock ≤ st'.clock ∧ st'.files = Function.update st.files (touchFile step) none ∧
            st'.log = log := by
      intro log hrun
      rw [runRecipe] at hrun
      cases outcomes with
      | nil => cases hrun
      | cons o' outcomes =>
        have hexec := @exec_cons ⟨st.files, st.clock + o.elapsed, log, o' :: outcomes⟩ _ _
          (read_rm (touchFile step)) o' outcomes rfl
        simp only [shell, hexec, runCommand] at hrun
        split_ifs at hrun with hdone
        · cases hrun
          refine ⟨?_, rfl, rfl⟩
          dsimp only
          omega
        · cases hrun
    by_cases htouched : (st.files (touchFile step)).isSome
    · rw [if_pos htouched] at h
      cases hresult : o.result with
      | refused =>
        rw [hresult] at h
        cases h
      | halfway =>
        rw [hresult] at h
        cases h
      | succeeds =>
        rw [hresult] at h
        obtain ⟨hclock, hfiles, hlog⟩ := hrm h
        exact ⟨hclock, hfiles, by rw [if_pos htouched, hlog]; rfl⟩
    · rw [if_neg htouched] at h
      obtain ⟨hclock, hfiles, hlog⟩ := hrm h
      exact ⟨hclock, hfiles, by rw [if_neg htouched, hlog]⟩

theorem exec_good {line : String} {command : Command} (hread : Command.read line = some command)
    (h : Good (n + 1) st.outcomes) : ∃ st', exec line st = (st', true) ∧ Good n st'.outcomes := by
  cases ho : st.outcomes with
  | nil =>
    rw [ho] at h
    exact absurd h.1 (Nat.not_succ_le_zero n)
  | cons o outcomes =>
    rw [ho] at h
    obtain ⟨hresult, hgood⟩ := h.cons
    rw [exec_cons hread ho, hresult]
    cases command with
    | script script => exact ⟨_, rfl, hgood⟩
    | touch file => exact ⟨_, rfl, hgood⟩
    | rm file => exact ⟨_, rfl, hgood⟩
    | ifFile file sql =>
      rw [runCommand]
      split_ifs
      · exact ⟨_, rfl, hgood⟩
      · exact ⟨_, rfl, hgood⟩

theorem runRecipe_good {lines : List String} (hread : ∀ line ∈ lines, (Command.read line).isSome)
    (h : Good (n + lines.length) st.outcomes) :
    ∃ st', runRecipe shell lines st = (st', true) ∧ Good n st'.outcomes := by
  induction lines generalizing st with
  | nil => exact ⟨st, rfl, h⟩
  | cons line lines ih =>
    obtain ⟨command, hcommand⟩ := Option.isSome_iff_exists.mp (hread line List.mem_cons_self)
    obtain ⟨st', hexec, hgood⟩ := exec_good hcommand (by rwa [List.length_cons, ← Nat.add_assoc] at h)
    rw [runRecipe, shell]
    simp only [hexec]
    exact ih (fun line' hline' => hread line' (List.mem_cons_of_mem _ hline')) hgood

end Recipe

end MakeState

end NpmFollower.Analysis
