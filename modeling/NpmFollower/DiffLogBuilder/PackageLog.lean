import NpmFollower.Library.KeyedLog
import NpmFollower.DiffLogBuilder.Run

/-! # The log of one package and of one version

The entries of a run about one package depend on the changes of this package
only, and its entries about one version on the history of the version: its data
in each change, where there are any.
-/

namespace NpmFollower.DiffLogBuilder

open Std PostgresDb

variable (H : Hasher)

/-- The instructions of one package among the entries. -/
def instrsOf (name : String) (es : List NewDiffLogEntryWithHash) : List DiffLogInstruction :=
  (es.filter fun e => e.entry.packageName = name).map fun e => e.entry.instr

theorem instrsOf_append (name : String) (es es' : List NewDiffLogEntryWithHash) :
    instrsOf name (es ++ es') = instrsOf name es ++ instrsOf name es' := by
  rw [instrsOf, List.filter_append, List.map_append]
  rfl

namespace ParsedChange

def instrs (c : ParsedChange) (st : Option InternalDiffLogPackageState) : List DiffLogInstruction :=
  (c.emitted H st).map fun e => e.entry.instr

theorem instrsOf_emitted (c : ParsedChange) (st : Option InternalDiffLogPackageState)
    (name : String) :
    instrsOf name (c.emitted H st) = if c.packageName = name then c.instrs H st else [] := by
  split_ifs with hc
  · rw [instrsOf, List.filter_eq_self.mpr, instrs]
    intro e he
    simpa [c.packageName_of_mem_emitted H he] using hc
  · rw [instrsOf, List.filter_eq_nil_iff.mpr, List.map_nil]
    intro e he
    simpa [c.packageName_of_mem_emitted H he] using hc

end ParsedChange

/-- The instructions for the changes of one package, from its state before them. -/
def packageLog : Option InternalDiffLogPackageState → List ParsedChange → List DiffLogInstruction
  | _, [] => []
  | st, c :: cs => c.instrs H st ++ packageLog (some (c.nextState H st)) cs

/-- The state of one package after its changes. -/
def packageState (st : Option InternalDiffLogPackageState) (cs : List ParsedChange) :
    Option InternalDiffLogPackageState :=
  cs.foldl (fun st c => some (c.nextState H st)) st

theorem packageLog_append (st : Option InternalDiffLogPackageState) (cs ds : List ParsedChange) :
    packageLog H st (cs ++ ds) = packageLog H st cs ++ packageLog H (packageState H st cs) ds := by
  induction cs generalizing st with
  | nil => rfl
  | cons c cs ih =>
    rw [List.cons_append, packageLog, packageLog, ih, List.append_assoc]
    rfl

namespace LocalStates

theorem instrsOf_emitted (L : LocalStates) (cs : List ParsedChange) (name : String) :
    instrsOf name (emitted H L cs) =
      packageLog H (L name).1 (cs.filter fun c => c.packageName = name) := by
  induction cs generalizing L with
  | nil => rfl
  | cons c cs ih =>
    rw [emitted, instrsOf_append, ih, ParsedChange.instrsOf_emitted, List.filter_cons]
    by_cases hc : c.packageName = name
    · subst hc
      simp [packageLog, step, ParsedChange.nextLocal]
    · simp [hc, step, Function.update_of_ne (Ne.symm hc)]

theorem after_apply_fst (L : LocalStates) (cs : List ParsedChange) (name : String) :
    (after H L cs name).1 =
      packageState H (L name).1 (cs.filter fun c => c.packageName = name) := by
  rw [after_apply]
  generalize cs.filter (fun c => c.packageName = name) = ds
  generalize L name = s
  induction ds generalizing s with
  | nil => rfl
  | cons c ds ih => exact ih _

end LocalStates

section Start

variable {H} {cs : List ParsedChange} {s : Progress}

theorem start_localStates_empty (name : String) : (Progress.start.localStates ∅ name).1 = none := by
  simp [Progress.localStates, Progress.start, DiffStateManager.new_localState, LocalState.loaded]

/-- The states of the packages after a call on empty tables. -/
theorem Progress.Follows.packageState (h : Progress.start.Follows H ∅ cs s) (name : String) :
    (s.stateManager.localState ∅ name).1 =
      packageState H none (cs.filter fun c => c.packageName = name) := by
  have hstates := congrFun h.states name
  rw [Progress.localStates] at hstates
  rw [hstates, LocalStates.after_apply_fst, start_localStates_empty]

/-- The instructions of the packages after a call on empty tables. -/
theorem Progress.Follows.packageLog (h : Progress.start.Follows H ∅ cs s) (name : String) :
    instrsOf name s.newDiffEntries =
      packageLog H none (cs.filter fun c => c.packageName = name) := by
  rw [h.entries]
  change instrsOf name ([] ++ _) = _
  rw [List.nil_append, LocalStates.instrsOf_emitted, start_localStates_empty]

end Start

section Version

/-- The instruction for one version, from its stored state and its data in the change. -/
def versionInstr (v : Semver) : Option InternalDiffLogVersionState → Option VersionOnlyPackument →
    Option DiffLogInstruction
  | none, none => none
  | some old, none => if old.deleted then none else some (.deleteVersion v)
  | none, some d => some (.createVersion v d)
  | some old, some d =>
    if old.versionPackHash ≠ H.versionHash d then some (.updateVersion v d) else none

/-- The instructions for one version, from its state before its history. -/
def versionLog (v : Semver) : Option InternalDiffLogVersionState →
    List (Option VersionOnlyPackument) → List DiffLogInstruction
  | _, [] => []
  | old, o :: history =>
    (versionInstr H v old o).toList ++ versionLog v (ParsedChange.nextVersion H old o) history

/-- The state of one version after its history. -/
def versionState (old : Option InternalDiffLogVersionState)
    (history : List (Option VersionOnlyPackument)) : Option InternalDiffLogVersionState :=
  history.foldl (ParsedChange.nextVersion H) old

theorem versionLog_append (v : Semver) (old : Option InternalDiffLogVersionState)
    (history history' : List (Option VersionOnlyPackument)) :
    versionLog H v old (history ++ history') =
      versionLog H v old history ++ versionLog H v (versionState H old history) history' := by
  induction history generalizing old with
  | nil => rfl
  | cons o history ih =>
    rw [List.cons_append, versionLog, versionLog, ih, List.append_assoc]
    rfl

/-- The data of a version in each of the changes. -/
def historyOf (v : Semver) (cs : List ParsedChange) : List (Option VersionOnlyPackument) :=
  cs.map fun c => c.versions[v]?

variable {H}

theorem version_of_versionInstr {v : Semver} {old : Option InternalDiffLogVersionState}
    {new : Option VersionOnlyPackument} {instr : DiffLogInstruction}
    (h : versionInstr H v old new = some instr) : instr.version = some v := by
  cases old <;> cases new <;> simp only [versionInstr] at h
  · cases h
  · cases h
    rfl
  all_goals
    split_ifs at h
    cases h
    rfl

namespace ParsedChange

theorem map_instr_diffVersion (c : ParsedChange) (v : Semver)
    (old : Option InternalDiffLogVersionState) (new : Option VersionOnlyPackument) :
    (c.diffVersion H v old new).map (fun e => e.1.entry.instr) =
      (versionInstr H v old new).toList := by
  cases old <;> cases new <;> simp only [diffVersion, versionInstr] <;> first | rfl | split_ifs <;> rfl

/-- The entries about a version in the loop over distinct versions. -/
theorem filter_flatMap_versionInstr {keys : List Semver} (hkeys : keys.Nodup)
    (old : Semver → Option InternalDiffLogVersionState)
    (new : Semver → Option VersionOnlyPackument) (v : Semver) :
    (keys.flatMap fun w => (versionInstr H w (old w) (new w)).toList).filter
        (fun instr => instr.version = some v) =
      if v ∈ keys then (versionInstr H v (old v) (new v)).toList else [] := by
  induction keys with
  | nil => rfl
  | cons w keys ih =>
    obtain ⟨hw, hkeys⟩ := List.nodup_cons.mp hkeys
    have hhead : (versionInstr H w (old w) (new w)).toList.filter
        (fun instr => instr.version = some v) =
          if w = v then (versionInstr H w (old w) (new w)).toList else [] := by
      cases hinstr : versionInstr H w (old w) (new w) with
      | none => simp
      | some instr => simp [List.filter_cons, version_of_versionInstr hinstr]
    rw [List.flatMap_cons, List.filter_append, hhead, ih hkeys]
    by_cases hwv : w = v
    · subst hwv
      simp [hw]
    · simp [hwv, Ne.symm hwv]

/-- The instructions of the first change of a package. -/
theorem instrs_none (c : ParsedChange) : c.instrs H none =
    .createPackage (packDataSetLatestToNone c.data).1 ::
      (c.versions.keys.flatMap fun v => (versionInstr H v none c.versions[v]?).toList) ++
      (if c.data.isNormal then [.updatePackage c.data] else []) ++ [.patchPackageReferences] := by
  have hversions : (c.versions.toList.map fun e => c.generateCreateVersionInstr H e.1 e.2).map
      (fun e => e.1.entry.instr) =
        c.versions.keys.flatMap fun v => (versionInstr H v none c.versions[v]?).toList := by
    rw [c.generateCreateVersionInstrs_eq H, List.map_flatMap]
    simp only [map_instr_diffVersion]
  rw [← hversions]
  obtain ⟨seq, name, data, versions⟩ := c
  cases data <;>
    simp [instrs, emitted, diffInstrs, createInstrs, packDataSetLatestToNone, entry,
      PackageOnlyPackument.isNormal, Function.comp_def]

/-- The instructions of a change to a known package. -/
theorem instrs_some (c : ParsedChange) {st : InternalDiffLogPackageState}
    (hst : st.packagePackHash.isSome) : c.instrs H (some st) =
      ((FiniteMap.unionKeys st.versions c.versions).flatMap fun v =>
        (versionInstr H v st.versions[v]? c.versions[v]?).toList) ++
      (if st.packagePackHash = some (H.packageHash c.data) then [] else [.updatePackage c.data]) := by
  obtain ⟨hash, hhash⟩ := Option.isSome_iff_exists.mp hst
  simp only [← map_instr_diffVersion c]
  rw [← List.map_flatMap]
  by_cases hdata : hash = H.packageHash c.data <;>
    simp [instrs, emitted, diffInstrs, updateInstrs, hhash, hdata, entry, Function.comp_def]

/-- The instructions of a change about a version. -/
theorem filter_instrs_version (c : ParsedChange) {st : Option InternalDiffLogPackageState}
    (hst : ∀ s ∈ st, s.packagePackHash.isSome) (v : Semver) :
    (c.instrs H st).filter (fun instr => instr.version = some v) =
      (versionInstr H v (oldVersions st)[v]? c.versions[v]?).toList := by
  cases st with
  | none =>
    have hkeys := filter_flatMap_versionInstr (H := H) (ExtTreeMap.nodup_keys (t := c.versions))
      (fun _ => none) (fun w => c.versions[w]?) v
    have hold : (oldVersions none)[v]? = none := ExtTreeMap.getElem?_empty
    have hinstrs : (c.instrs H none).filter (fun instr => instr.version = some v) =
        if v ∈ c.versions.keys then (versionInstr H v none c.versions[v]?).toList else [] := by
      rw [← hkeys, c.instrs_none]
      split_ifs <;> simp [DiffLogInstruction.version]
    rw [hinstrs, hold]
    split_ifs with hv
    · rfl
    · rw [ExtTreeMap.mem_keys] at hv
      rw [ExtTreeMap.getElem?_eq_none hv]
      rfl
  | some st =>
    have hkeys := filter_flatMap_versionInstr (H := H)
      (FiniteMap.nodup_unionKeys st.versions c.versions) (fun w => st.versions[w]?)
      (fun w => c.versions[w]?) v
    have hinstrs : (c.instrs H (some st)).filter (fun instr => instr.version = some v) =
        if v ∈ FiniteMap.unionKeys st.versions c.versions then
          (versionInstr H v st.versions[v]? c.versions[v]?).toList
        else [] := by
      rw [← hkeys, c.instrs_some (hst st rfl)]
      split_ifs <;> simp [DiffLogInstruction.version]
    rw [hinstrs]
    change _ = (versionInstr H v st.versions[v]? c.versions[v]?).toList
    split_ifs with hv
    · rfl
    · rw [FiniteMap.mem_unionKeys, not_or] at hv
      rw [ExtTreeMap.getElem?_eq_none hv.1, ExtTreeMap.getElem?_eq_none hv.2]
      rfl

end ParsedChange

/-- The instructions of a package about a version are the log of its history. -/
theorem filter_packageLog_version {st : Option InternalDiffLogPackageState}
    (hst : ∀ s ∈ st, s.packagePackHash.isSome) (cs : List ParsedChange) (v : Semver) :
    (packageLog H st cs).filter (fun instr => instr.version = some v) =
      versionLog H v (ParsedChange.oldVersions st)[v]? (historyOf v cs) := by
  induction cs generalizing st with
  | nil => rfl
  | cons c cs ih =>
    rw [packageLog, List.filter_append, c.filter_instrs_version hst, ih (by rintro _ ⟨⟩; rfl)]
    simp only [historyOf, List.map_cons, versionLog]
    rw [← c.nextState_versions H st v]
    rfl

theorem filter_packageLog_none (H : Hasher) (cs : List ParsedChange) (v : Semver) :
    (packageLog H none cs).filter (fun instr => instr.version = some v) =
      versionLog H v none (historyOf v cs) := by
  have hstart : (ParsedChange.oldVersions none)[v]? = none := ExtTreeMap.getElem?_empty
  rw [filter_packageLog_version (by rintro _ ⟨⟩), hstart]

theorem packageState_versions {st : Option InternalDiffLogPackageState} (cs : List ParsedChange)
    (v : Semver) : (ParsedChange.oldVersions (packageState H st cs))[v]? =
      versionState H (ParsedChange.oldVersions st)[v]? (historyOf v cs) := by
  induction cs generalizing st with
  | nil => rfl
  | cons c cs ih =>
    have hnext : (ParsedChange.oldVersions (some (c.nextState H st)))[v]? =
        ParsedChange.nextVersion H (ParsedChange.oldVersions st)[v]? c.versions[v]? :=
      c.nextState_versions H st v
    refine Eq.trans ih ?_
    rw [hnext]
    rfl

theorem packageState_versions_none (H : Hasher) (cs : List ParsedChange) (v : Semver) :
    (ParsedChange.oldVersions (packageState H none cs))[v]? =
      versionState H none (historyOf v cs) := by
  have hstart : (ParsedChange.oldVersions none)[v]? = none := ExtTreeMap.getElem?_empty
  rw [packageState_versions, hstart]

end Version

section PackageData

variable {H}

/-- The data of the last instruction that gives its package some. -/
def lastPackageData (instrs : List DiffLogInstruction) : Option PackageOnlyPackument :=
  (instrs.filterMap DiffLogInstruction.packageData).getLast?

theorem lastPackageData_append (is is' : List DiffLogInstruction) :
    lastPackageData (is ++ is') = (lastPackageData is').or (lastPackageData is) := by
  rw [lastPackageData, List.filterMap_append, List.getLast?_append]
  rfl

namespace ParsedChange

theorem packageData_of_versionInstr {v : Semver} {old : Option InternalDiffLogVersionState}
    {new : Option VersionOnlyPackument} {instr : DiffLogInstruction}
    (h : versionInstr H v old new = some instr) : instr.packageData = none := by
  cases old <;> cases new <;> simp only [versionInstr] at h
  · cases h
  · cases h
    rfl
  all_goals
    split_ifs at h
    cases h
    rfl

theorem filterMap_packageData_flatMap (keys : List Semver)
    (old : Semver → Option InternalDiffLogVersionState)
    (new : Semver → Option VersionOnlyPackument) :
    (keys.flatMap fun v => (versionInstr H v (old v) (new v)).toList).filterMap
      DiffLogInstruction.packageData = [] := by
  rw [List.filterMap_eq_nil_iff]
  intro instr hinstr
  obtain ⟨v, _, hv⟩ := List.mem_flatMap.mp hinstr
  exact packageData_of_versionInstr (Option.mem_toList.mp hv)

/-- A change whose package data is new ends by giving it to the package. -/
theorem lastPackageData_instrs (c : ParsedChange) {st : Option InternalDiffLogPackageState}
    (hst : ∀ s ∈ st, s.packagePackHash.isSome) :
    lastPackageData (c.instrs H st) =
      if st.bind InternalDiffLogPackageState.packagePackHash = some (H.packageHash c.data) then none
      else some c.data := by
  rw [lastPackageData]
  cases st with
  | none =>
    have hversions := filterMap_packageData_flatMap (H := H) c.versions.keys (fun _ => none)
      fun v => c.versions[v]?
    rw [c.instrs_none, List.cons_append, List.cons_append, List.filterMap_cons,
      List.filterMap_append, List.filterMap_append, hversions]
    cases c.data <;> rfl
  | some st =>
    rw [c.instrs_some (hst st rfl), List.filterMap_append, filterMap_packageData_flatMap]
    simp only [Option.bind_some]
    split_ifs <;> rfl

end ParsedChange

theorem packageState_hash (cs : List ParsedChange) :
    (packageState H none cs).bind InternalDiffLogPackageState.packagePackHash =
      cs.getLast?.map fun c => H.packageHash c.data := by
  induction cs using List.reverseRecOn with
  | nil => rfl
  | append_singleton cs c ih => simp [packageState, ParsedChange.nextState]

theorem packageState_hash_isSome (cs : List ParsedChange) :
    ∀ s ∈ packageState H none cs, s.packagePackHash.isSome := by
  intro s hs
  induction cs using List.reverseRecOn with
  | nil => cases hs
  | append_singleton cs c ih =>
    simp only [packageState, List.foldl_append, List.foldl_cons, List.foldl_nil,
      Option.mem_some_iff] at hs
    rw [← hs]
    rfl

/-- The last package data of the log comes from a change and has the hash of the last change. -/
theorem lastPackageData_packageLog (cs : List ParsedChange) :
    (lastPackageData (packageLog H none cs)).map H.packageHash =
        cs.getLast?.map (fun c => H.packageHash c.data) ∧
      ∀ d ∈ lastPackageData (packageLog H none cs), ∃ c ∈ cs, c.data = d := by
  induction cs using List.reverseRecOn with
  | nil => exact ⟨rfl, by rintro _ ⟨⟩⟩
  | append_singleton cs c ih =>
    obtain ⟨hhash, hmem⟩ := ih
    rw [packageLog_append, packageLog, packageLog, List.append_nil, lastPackageData_append,
      c.lastPackageData_instrs (packageState_hash_isSome cs), packageState_hash]
    split_ifs with hsame
    · rw [Option.none_or, hhash, hsame]
      refine ⟨by simp, fun d hd => ?_⟩
      obtain ⟨c', hc', hd'⟩ := hmem d hd
      exact ⟨c', List.mem_append_left _ hc', hd'⟩
    · refine ⟨by simp, fun d hd => ?_⟩
      rw [Option.some_or, Option.mem_some_iff] at hd
      exact ⟨c, by simp, hd⟩

end PackageData

end NpmFollower.DiffLogBuilder
