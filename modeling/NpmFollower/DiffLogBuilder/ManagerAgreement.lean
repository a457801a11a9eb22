import NpmFollower.DiffLogBuilder.Replay

/-! # The manager against its log

The hashes of the manager are those of the last data in the log. The flag of a
deleted version is never lowered, so it agrees with the log only as long as no
data with another hash come for the version after it was dropped.
-/

namespace NpmFollower.DiffLogBuilder

open Std PostgresDb

/-- The data of the last instruction that gives the version some. -/
def lastVersionData (v : Semver) (instrs : List DiffLogInstruction) : Option VersionOnlyPackument :=
  ((instrs.filter fun instr => instr.version = some v).filterMap
    DiffLogInstruction.versionData).getLast?

/-- The hash state of a package agrees with its instructions. -/
structure AgreesWith (H : Hasher) (st : InternalDiffLogPackageState)
    (instrs : List DiffLogInstruction) : Prop where
  deleted : ∀ (v : Semver) s, st.versions[v]? = some s →
    (s.deleted = true ↔
      KeyedLog.lastAbout DiffLogInstruction.version v instrs = some (.deleteVersion v))
  versionHash : ∀ (v : Semver) s, st.versions[v]? = some s →
    (lastVersionData v instrs).map H.versionHash = some s.versionPackHash
  packageHash : (lastPackageData instrs).map H.packageHash = st.packagePackHash

/-- Every package in the manager agrees with the entries that have been emitted for it. -/
def ManagerAgrees (H : Hasher) (s : Progress) : Prop :=
  ∀ (name : String) st flush, s.stateManager[name]? = some (some st, flush) →
    AgreesWith H st (instrsOf name s.newDiffEntries)

/-- Once a version has been dropped all further data for it have the hash it had then. -/
def KeepsHashOnceDropped (H : Hasher) (history : List (Option VersionOnlyPackument)) : Prop :=
  ∀ pre d post, history = pre ++ some d :: none :: post →
    ∀ d', some d' ∈ post → H.versionHash d' = H.versionHash d

section History

variable {H : Hasher}

/-- What `KeepsHashOnceDropped` says about a first drop at the given hash. -/
def KeepsHashAfter (H : Hasher) (hash : String) (history : List (Option VersionOnlyPackument)) :
    Prop :=
  ∀ post, history = none :: post → ∀ d', some d' ∈ post → H.versionHash d' = hash

theorem keepsHashOnceDropped_none_cons (history : List (Option VersionOnlyPackument)) :
    KeepsHashOnceDropped H (none :: history) ↔ KeepsHashOnceDropped H history := by
  constructor
  · rintro h pre d post rfl
    exact h (none :: pre) d post rfl
  · intro h pre d post heq
    cases pre with
    | nil => cases heq
    | cons o pre => exact h pre d post (List.cons.inj heq).2

theorem keepsHashOnceDropped_some_cons (d : VersionOnlyPackument)
    (history : List (Option VersionOnlyPackument)) :
    KeepsHashOnceDropped H (some d :: history) ↔
      KeepsHashAfter H (H.versionHash d) history ∧ KeepsHashOnceDropped H history := by
  constructor
  · intro h
    refine ⟨?_, ?_⟩
    · rintro post rfl
      exact h [] d post rfl
    · rintro pre d₁ post rfl
      exact h (some d :: pre) d₁ post rfl
  · rintro ⟨hafter, hrest⟩ pre d₁ post heq
    cases pre with
    | nil =>
      obtain ⟨hd, htail⟩ := List.cons.inj heq
      cases hd
      exact hafter post htail
    | cons o pre => exact hrest pre d₁ post (List.cons.inj heq).2

theorem keepsHashAfter_none_cons (hash : String) (history : List (Option VersionOnlyPackument)) :
    KeepsHashAfter H hash (none :: history) ↔ ∀ d, some d ∈ history → H.versionHash d = hash := by
  constructor
  · intro h
    exact h history rfl
  · rintro h post ⟨⟩
    exact h

theorem keepsHashAfter_some_cons (hash : String) (d : VersionOnlyPackument)
    (history : List (Option VersionOnlyPackument)) : KeepsHashAfter H hash (some d :: history) := by
  rintro post ⟨⟩

theorem keepsHashOnceDropped_of_forall {hash : String}
    {history : List (Option VersionOnlyPackument)}
    (h : ∀ d, some d ∈ history → H.versionHash d = hash) : KeepsHashOnceDropped H history := by
  rintro pre d post rfl d' hd'
  rw [h d' (by simp [hd']), h d (by simp)]

variable (H) (v : Semver)

/-- The state of a version with the last instruction about it, after one change. -/
def trackVersion (t : Option InternalDiffLogVersionState × Option DiffLogInstruction)
    (o : Option VersionOnlyPackument) :
    Option InternalDiffLogVersionState × Option DiffLogInstruction :=
  (ParsedChange.nextVersion H t.1 o, (versionInstr H v t.1 o).or t.2)

/-- The flag of the version says that the last instruction deletes it. -/
def FlagAgrees (t : Option InternalDiffLogVersionState × Option DiffLogInstruction) : Prop :=
  ∀ s ∈ t.1, (s.deleted = true ↔ t.2 = some (.deleteVersion v))

variable {H v}

theorem foldl_trackVersion (old : Option InternalDiffLogVersionState)
    (last : Option DiffLogInstruction) (history : List (Option VersionOnlyPackument)) :
    history.foldl (trackVersion H v) (old, last) =
      (versionState H old history, (versionLog H v old history).getLast?.or last) := by
  induction history generalizing old last with
  | nil => rfl
  | cons o history ih =>
    rw [List.foldl_cons, trackVersion, ih, versionLog, List.getLast?_append]
    refine Prod.ext rfl ?_
    rw [Option.or_assoc]
    cases versionInstr H v old o <;> rfl

/-- A dropped version agrees until data with another hash come. -/
theorem flagAgrees_dropped {hash : String} (history : List (Option VersionOnlyPackument)) :
    (∀ pre, pre <+: history → FlagAgrees v
        (pre.foldl (trackVersion H v) (some ⟨hash, true⟩, some (.deleteVersion v)))) ↔
      ∀ d, some d ∈ history → H.versionHash d = hash := by
  induction history with
  | nil => simp [FlagAgrees]
  | cons o history ih =>
    have hnow : FlagAgrees v (some ⟨hash, true⟩, some (.deleteVersion v)) := by
      simp [FlagAgrees]
    rw [KeyedLog.forall_prefix_cons, and_iff_right hnow]
    cases o with
    | none => simpa [trackVersion, ParsedChange.nextVersion, versionInstr] using ih
    | some d =>
      by_cases hd : H.versionHash d = hash
      · subst hd
        simpa [trackVersion, ParsedChange.nextVersion, versionInstr] using ih
      · refine iff_of_false (fun h => ?_) fun h => hd (h d List.mem_cons_self)
        have hupdated := h [] List.nil_prefix
        simp [trackVersion, ParsedChange.nextVersion, versionInstr, Ne.symm hd, FlagAgrees]
          at hupdated

theorem flagAgrees_live {hash : String} {last : Option DiffLogInstruction}
    (hlast : last ≠ some (.deleteVersion v)) (history : List (Option VersionOnlyPackument)) :
    (∀ pre, pre <+: history → FlagAgrees v
        (pre.foldl (trackVersion H v) (some ⟨hash, false⟩, last))) ↔
      KeepsHashAfter H hash history ∧ KeepsHashOnceDropped H history := by
  induction history generalizing hash last with
  | nil => simp [FlagAgrees, hlast, KeepsHashAfter, KeepsHashOnceDropped]
  | cons o history ih =>
    have hnow : FlagAgrees v (some ⟨hash, false⟩, last) := by
      simp [FlagAgrees, hlast]
    rw [KeyedLog.forall_prefix_cons, and_iff_right hnow]
    cases o with
    | none =>
      rw [keepsHashAfter_none_cons, keepsHashOnceDropped_none_cons,
        and_iff_left_of_imp keepsHashOnceDropped_of_forall, ← flagAgrees_dropped (v := v)]
      rfl
    | some d =>
      rw [and_iff_right (keepsHashAfter_some_cons hash d history), keepsHashOnceDropped_some_cons]
      by_cases hd : hash = H.versionHash d
      · have hstep : trackVersion H v (some ⟨hash, false⟩, last) (some d) =
            (some ⟨H.versionHash d, false⟩, last) := by
          simp [trackVersion, ParsedChange.nextVersion, versionInstr, hd]
        rw [hstep]
        exact ih hlast
      · have hstep : trackVersion H v (some ⟨hash, false⟩, last) (some d) =
            (some ⟨H.versionHash d, false⟩, some (.updateVersion v d)) := by
          simp [trackVersion, ParsedChange.nextVersion, versionInstr, hd]
        rw [hstep]
        exact ih (by simp)

theorem flagAgrees_unknown (history : List (Option VersionOnlyPackument)) :
    (∀ pre, pre <+: history → FlagAgrees v (pre.foldl (trackVersion H v) (none, none))) ↔
      KeepsHashOnceDropped H history := by
  induction history with
  | nil => simp [FlagAgrees, KeepsHashOnceDropped]
  | cons o history ih =>
    have hnow : FlagAgrees v (none, none) := by simp [FlagAgrees]
    rw [KeyedLog.forall_prefix_cons, and_iff_right hnow]
    cases o with
    | none =>
      rw [keepsHashOnceDropped_none_cons, ← ih]
      rfl
    | some d =>
      have hcreated : some (.createVersion v d) ≠ some (DiffLogInstruction.deleteVersion v) := by
        simp
      rw [keepsHashOnceDropped_some_cons, ← flagAgrees_live hcreated]
      rfl

/-- The stored hash is the hash of the last data in the log. -/
theorem versionLog_lastData (history : List (Option VersionOnlyPackument)) :
    (((versionLog H v none history).filterMap DiffLogInstruction.versionData).getLast?).map
        H.versionHash =
      (versionState H none history).map (·.versionPackHash) := by
  induction history using List.reverseRecOn with
  | nil => rfl
  | append_singleton history o ih =>
    have hsnoc : versionState H none (history ++ [o]) =
        ParsedChange.nextVersion H (versionState H none history) o := by
      simp [versionState]
    rw [versionLog_append, List.filterMap_append, List.getLast?_append, Option.map_or, ih, hsnoc]
    cases versionState H none history with
    | none =>
      cases o <;>
        simp [versionLog, versionInstr, ParsedChange.nextVersion, DiffLogInstruction.versionData]
    | some s =>
      cases o with
      | none =>
        cases hdel : s.deleted <;>
          simp [versionLog, versionInstr, ParsedChange.nextVersion, DiffLogInstruction.versionData,
            hdel]
      | some d =>
        by_cases hd : s.versionPackHash = H.versionHash d <;>
          simp [versionLog, versionInstr, ParsedChange.nextVersion, DiffLogInstruction.versionData,
            hd]

end History

section Run

variable {H : Hasher}

/-- After its changes a package agrees with its log exactly when the flags of its versions do. -/
theorem agreesWith_packageLog_iff {st : InternalDiffLogPackageState} {cs : List ParsedChange}
    (hst : packageState H none cs = some st) :
    AgreesWith H st (packageLog H none cs) ↔ ∀ v, FlagAgrees v
      ((historyOf v cs).foldl (trackVersion H v) (none, none)) := by
  have hversion (v : Semver) : st.versions[v]? = versionState H none (historyOf v cs) := by
    have hversions := packageState_versions_none H cs v
    rwa [hst] at hversions
  have hlog (v : Semver) := filter_packageLog_none H cs v
  have hflag (v : Semver) : FlagAgrees v ((historyOf v cs).foldl (trackVersion H v) (none, none)) ↔
      ∀ s, st.versions[v]? = some s → (s.deleted = true ↔ KeyedLog.lastAbout
        DiffLogInstruction.version v (packageLog H none cs) = some (.deleteVersion v)) := by
    rw [foldl_trackVersion, FlagAgrees, KeyedLog.lastAbout, hlog, hversion, Option.or_none]
    rfl
  refine ⟨fun h v => (hflag v).mpr (h.deleted v), fun h => ⟨fun v => (hflag v).mp (h v), ?_, ?_⟩⟩
  · intro v s hs
    rw [lastVersionData, hlog, versionLog_lastData, ← hversion, hs]
    rfl
  · rw [(lastPackageData_packageLog cs).1, ← packageState_hash, hst]
    rfl

/-- The manager of a call on empty tables, through the changes that have been read. -/
theorem managerAgrees_iff_flagAgrees {env : Env} {batch : List Change} {s : Progress}
    (hrun : processAll env ∅ Progress.start batch = .ok s) :
    ManagerAgrees env.hasher s ↔ ∀ name v, FlagAgrees v
      ((historyOf v (changesOf env batch name)).foldl (trackVersion env.hasher v) (none, none)) := by
  have hfollows := (follows_of_processAll hrun).2
  refine forall_congr' fun name => ?_
  have hlocal := hfollows.packageState name
  rw [hfollows.packageLog, ← changesOf] at *
  cases hst : packageState env.hasher none (changesOf env batch name) with
  | none =>
    have hnone : changesOf env batch name = [] := by
      rcases List.eq_nil_or_concat (changesOf env batch name) with h | ⟨cs, c, h⟩
      · exact h
      · rw [h, packageState, List.concat_eq_append, List.foldl_append] at hst
        cases hst
    rw [hst] at hlocal
    refine iff_of_true (fun st flush hm => ?_) fun v => ?_
    · rw [DiffStateManager.localState_of_getElem? _ _ hm] at hlocal
      cases hlocal
    · rw [hnone]
      rintro _ ⟨⟩
  | some st =>
    rw [← agreesWith_packageLog_iff hst]
    rw [hst, DiffStateManager.localState] at hlocal
    cases hm : s.stateManager[name]? with
    | none => simp [hm, LocalState.loaded] at hlocal
    | some state =>
      obtain ⟨st', flush⟩ := state
      rw [hm] at hlocal
      cases hlocal
      constructor
      · intro h
        exact h st flush rfl
      · rintro h _ _ ⟨⟩
        exact h

/-- In every state that a call on empty tables goes through the manager agrees with the log,
exactly when each dropped version keeps its hash from then on. -/
theorem managerAgrees_iff (env : Env) (batch : List Change)
    (hparse : ∀ c ∈ batch, (c.parse env).isSome) :
    (∀ pre s, pre <+: batch → processAll env ∅ Progress.start pre = .ok s →
        ManagerAgrees env.hasher s) ↔
      ∀ name v, KeepsHashOnceDropped env.hasher (historyOf v (changesOf env batch name)) := by
  have hinit (name : String) (v : Semver) {P : List (Option VersionOnlyPackument) → Prop} :
      (∀ history, history <+: historyOf v (changesOf env batch name) → P history) ↔
        ∀ pre, pre <+: batch → P (historyOf v (changesOf env pre name)) := by
    constructor
    · intro h pre hpre
      exact h _ (((hpre.filterMap _).filter _).map _)
    · intro h history hhistory
      obtain ⟨ds, hds, rfl⟩ := List.prefix_map_iff.mp hhistory
      obtain ⟨cs, hcs, rfl⟩ := List.prefix_filter_iff.mp hds
      obtain ⟨pre, hpre, rfl⟩ := List.prefix_filterMap_iff.mp hcs
      exact h pre hpre
  have hkeeps (name : String) (v : Semver) :
      KeepsHashOnceDropped env.hasher (historyOf v (changesOf env batch name)) ↔
        ∀ pre, pre <+: batch → FlagAgrees v ((historyOf v (changesOf env pre name)).foldl
          (trackVersion env.hasher v) (none, none)) := by
    rw [← flagAgrees_unknown (v := v)]
    exact hinit name v
  simp only [hkeeps]
  constructor
  · intro h name v pre hpre
    have hspec := processAll_spec env (s := Progress.start) (DiffStateManager.new_allSettled ∅) pre
    rw [if_pos fun c hc => hparse c (hpre.subset hc)] at hspec
    obtain ⟨s, hrun, _⟩ := hspec
    exact (managerAgrees_iff_flagAgrees hrun).mp (h pre s hpre hrun) name v
  · intro h pre s hpre hrun
    exact (managerAgrees_iff_flagAgrees hrun).mpr fun name v => h name v pre hpre

theorem managerAgrees_iff_changed :
    (∀ pre s, pre <+: [sampleChange 1 [] [("1.0.0", "a")], sampleChange 2 [] [("1.0.0", "b")]] →
        processAll sampleEnv ∅ Progress.start pre = .ok s → ManagerAgrees sampleHasher s) ↔
      ∀ name v, KeepsHashOnceDropped sampleHasher (historyOf v (changesOf sampleEnv
        [sampleChange 1 [] [("1.0.0", "a")], sampleChange 2 [] [("1.0.0", "b")]] name)) :=
  managerAgrees_iff sampleEnv _ (by decide +kernel)

/-- A version that comes back changed is live in the log and still marked as deleted. -/
theorem not_managerAgrees : ∃ batch s, processAll sampleEnv ∅ Progress.start batch = .ok s ∧
    ¬ManagerAgrees sampleHasher s := by
  let batch := [sampleChange 1 [] [("1.0.0", "a")], sampleChange 2 [] [],
    sampleChange 3 [] [("1.0.0", "b")]]
  let v : Semver := ⟨1, 0, 0, [], []⟩
  have hspec := processAll_spec sampleEnv (s := Progress.start) (DiffStateManager.new_allSettled ∅)
    batch
  rw [if_pos (by decide +kernel)] at hspec
  obtain ⟨s, hrun, _⟩ := hspec
  refine ⟨batch, s, hrun, fun hagrees => ?_⟩
  have hdeleted : (processAll sampleEnv ∅ Progress.start batch).toOption.map (fun s =>
      (s.stateManager["p"]?.bind Prod.fst).bind fun st => st.versions[v]?.map (·.deleted)) =
        some (some true) := by decide +kernel
  have hupdated : (processAll sampleEnv ∅ Progress.start batch).toOption.map (fun s =>
      ((KeyedLog.lastAbout DiffLogInstruction.version v (instrsOf "p" s.newDiffEntries)).bind
        DiffLogInstruction.versionData).isSome) = some true := by decide +kernel
  rw [hrun] at hdeleted hupdated
  simp only [Except.toOption, Option.map_some, Option.some.injEq, Option.bind_eq_some_iff,
    Option.map_eq_some_iff] at hdeleted hupdated
  obtain ⟨st, ⟨⟨_, flush⟩, hst, rfl⟩, x, hx, hdel⟩ := hdeleted
  rw [((hagrees "p" st flush hst).deleted v x hx).mp hdel] at hupdated
  cases hupdated

end Run

end NpmFollower.DiffLogBuilder
