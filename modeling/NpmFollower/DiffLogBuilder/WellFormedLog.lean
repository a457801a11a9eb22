import NpmFollower.DiffLogBuilder.PackageLog

/-! # The well-formed log of a package

The consumer of the diff log relies on an order in the entries of a package: it
is created before anything else, a version before it is changed, and a latest
version before the package points to it.
-/

namespace NpmFollower.DiffLogBuilder

open Std PostgresDb

/-- The latest version is one of the versions. -/
def LatestListed (data : PackageOnlyPackument) (versions : AllVersionPackuments) : Prop :=
  ∀ l, data.latest = some l → l ∈ versions

namespace Parsers

variable {P : Parsers}

theorem mem_of_checkLatest {latest : Option Semver} {versions : AllVersionPackuments}
    {distTags : JsonMap} {l : Semver} (h : (checkLatest latest versions distTags).1 = some l) :
    l ∈ versions := by
  cases latest with
  | none => cases h
  | some l' =>
    rw [checkLatest] at h
    split_ifs at h with hl
    cases h
    exact hl

theorem forall_mem_bind {α β : Type} {x : Option α} {f : α → Option β} {Q : β → Prop}
    (h : ∀ a, ∀ b ∈ f a, Q b) : ∀ b ∈ x >>= f, Q b := by
  intro b hb
  obtain ⟨a, -, hb⟩ := Option.bind_eq_some_iff.mp hb
  exact h a b hb

theorem latestListed_normal (j : JsonMap) :
    ∀ r ∈ P.deserializePackumentBlobNormal j, LatestListed r.1 r.2 := by
  refine forall_mem_bind fun _ => forall_mem_bind fun _ => forall_mem_bind fun _ => ?_
  refine forall_mem_bind fun _ => forall_mem_bind fun _ => forall_mem_bind fun _ => ?_
  refine forall_mem_bind fun _ => ?_
  rintro _ ⟨⟩ l hl
  exact mem_of_checkLatest hl

theorem latestListed_unpublished (j : JsonMap) :
    ∀ r ∈ P.deserializePackumentBlobUnpublished j, LatestListed r.1 r.2 := by
  refine forall_mem_bind fun _ => forall_mem_bind fun _ => forall_mem_bind fun _ => ?_
  refine forall_mem_bind fun _ => forall_mem_bind fun _ => ?_
  rintro _ ⟨⟩ l ⟨⟩

theorem latestListed_named {name : String} {x : Option (PackageOnlyPackument × AllVersionPackuments)}
    (h : ∀ r ∈ x, LatestListed r.1 r.2) :
    ∀ r ∈ (do let (packageData, versionsData) ← x; some (name, packageData, versionsData)),
      LatestListed r.2.1 r.2.2 := by
  intro r hr
  obtain ⟨⟨data, versions⟩, hx, hr⟩ := Option.bind_eq_some_iff.mp hr
  cases hr
  exact h _ hx

theorem latestListed_doc (doc : JsonMap) (checkDeleted : Option Bool) (checkName : Option String) :
    ∀ r ∈ P.deserializePackumentDoc doc checkDeleted checkName, LatestListed r.2.1 r.2.2 := by
  refine forall_mem_bind fun (docId, doc) => forall_mem_bind fun docId => ?_
  refine forall_mem_bind fun (docDeleted, doc) => forall_mem_bind fun (rev, doc) => ?_
  refine forall_mem_bind fun _ => forall_mem_bind fun _ => forall_mem_bind fun _ => ?_
  dsimp only
  by_cases hdeleted : docDeleted.getD false
  · rw [if_pos hdeleted]
    refine forall_mem_bind fun _ => ?_
    rintro _ ⟨⟩ l ⟨⟩
  rw [if_neg hdeleted]
  have hrest (unpublished : Bool) : ∀ r ∈ (if unpublished then do
        let (packageData, versionsData) ← P.deserializePackumentBlobUnpublished doc
        some (docId, packageData, versionsData)
      else if doc.containsKey "dist-tags" then do
        let (packageData, versionsData) ← P.deserializePackumentBlobNormal doc
        some (docId, packageData, versionsData)
      else do
        guard (¬ doc.containsKey "time" ∧ ¬ doc.containsKey "versions")
        some (docId, .missingData, ∅)), LatestListed r.2.1 r.2.2 := by
    split_ifs
    · exact latestListed_named (latestListed_unpublished doc)
    · exact latestListed_named (latestListed_normal doc)
    · refine forall_mem_bind fun _ => ?_
      rintro _ ⟨⟩ l ⟨⟩
  cases doc.get "time" with
  | none => exact forall_mem_bind hrest
  | some time => exact forall_mem_bind hrest

/-- The latest version of a change is one of its versions. -/
theorem latestListed_change (c : Change) :
    ∀ r ∈ P.deserializeChange c, ∀ d ∈ r, LatestListed d.2.1 d.2.2 := by
  refine forall_mem_bind fun changeJson => forall_mem_bind fun (del, changeJson) => ?_
  refine forall_mem_bind fun del => forall_mem_bind fun (packageName, changeJson) => ?_
  refine forall_mem_bind fun packageName => ?_
  dsimp only
  split_ifs
  · rintro _ ⟨⟩ d ⟨⟩
  · refine forall_mem_bind fun (doc, _) => forall_mem_bind fun doc => ?_
    intro r hr
    obtain ⟨parsed, hparsed, hr⟩ := Option.bind_eq_some_iff.mp hr
    cases hr
    rintro _ ⟨⟩
    exact latestListed_doc _ _ _ _ hparsed

end Parsers

/-- The version is created by one of the instructions. -/
def CreatedIn (v : Semver) (instrs : List DiffLogInstruction) : Prop :=
  ∃ d, .createVersion v d ∈ instrs

/-- What has to be true of the instructions before an instruction. -/
def Admitted (before : List DiffLogInstruction) : DiffLogInstruction → Prop
  | .createPackage data => before = [] ∧ data.latest = none
  | .updatePackage data => ∀ l, data.latest = some l → CreatedIn l before
  | .patchPackageReferences => .patchPackageReferences ∉ before
  | .createVersion v _ => ¬CreatedIn v before
  | .updateVersion v _ => CreatedIn v before
  | .deleteVersion v => CreatedIn v before

/-- The log of a package: the instructions of the change that creates it, and those of the others. -/
structure WellFormedLog (created rest : List DiffLogInstruction) : Prop where
  ends : ∃ data body, created = .createPackage data :: body ++ [.patchPackageReferences]
  ordered : KeyedLog.Ordered Admitted (created ++ rest)

section Versions

variable {H : Hasher} {old : Semver → Option InternalDiffLogVersionState}
  {new : Semver → Option VersionOnlyPackument} {pre : List DiffLogInstruction} {keys : List Semver}

theorem CreatedIn.append_left {v : Semver} {l l' : List DiffLogInstruction} (h : CreatedIn v l) :
    CreatedIn v (l ++ l') := by
  obtain ⟨d, hd⟩ := h
  exact ⟨d, List.mem_append_left _ hd⟩

/-- The instructions for the versions of a change, after instructions that have created the versions
of the stored state. -/
theorem ordered_versions (hkeys : keys.Nodup) (hpre : ∀ v, (old v).isSome ↔ CreatedIn v pre) :
    KeyedLog.Ordered (fun before => Admitted (pre ++ before))
      (keys.flatMap fun v => (versionInstr H v (old v) (new v)).toList) := by
  intro before i after hes
  obtain ⟨v, -, hi⟩ := List.mem_flatMap.mp (hes ▸ List.mem_append_right before List.mem_cons_self)
  have hinstr := Option.mem_toList.mp hi
  have hversion := version_of_versionInstr hinstr
  have hbefore : ∀ j ∈ before, j.version ≠ some v := by
    have hfilter := ParsedChange.filter_flatMap_versionInstr (H := H) hkeys old new v
    rw [hes, List.filter_append, List.filter_cons_of_pos (by simpa using hversion), hinstr] at hfilter
    have hnil : before.filter (fun instr => instr.version = some v) = [] := by
      split_ifs at hfilter
      · have hlength := congrArg List.length hfilter
        rw [List.length_append, List.length_cons] at hlength
        simp only [Option.toList_some, List.length_singleton] at hlength
        exact List.length_eq_zero_iff.mp (by omega)
      · simp at hfilter
    intro j hj hjv
    simpa [hjv] using List.filter_eq_nil_iff.mp hnil j hj
  cases hold : old v with
  | none =>
    cases hnew : new v with
    | none =>
      rw [hold, hnew] at hinstr
      cases hinstr
    | some d =>
      rw [hold, hnew] at hinstr
      cases hinstr
      rintro ⟨d', hd'⟩
      rcases List.mem_append.mp hd' with hd' | hd'
      · have hsome := (hpre v).mpr ⟨d', hd'⟩
        rw [hold] at hsome
        cases hsome
      · exact hbefore _ hd' rfl
  | some st =>
    have hcreated : CreatedIn v (pre ++ before) :=
      ((hpre v).mp (Option.isSome_of_eq_some hold)).append_left
    rw [hold] at hinstr
    cases hnew : new v <;> rw [hnew] at hinstr <;> simp only [versionInstr] at hinstr <;>
      split_ifs at hinstr <;> cases hinstr <;> exact hcreated

/-- The latest version of a change has been created when its package data is updated. -/
theorem admitted_updatePackage {data : PackageOnlyPackument} {versions : AllVersionPackuments}
    (hlisted : LatestListed data versions) (hkeys : ∀ v ∈ versions, v ∈ keys)
    (hpre : ∀ v, (old v).isSome ↔ CreatedIn v pre) :
    Admitted (pre ++ keys.flatMap fun v => (versionInstr H v (old v) versions[v]?).toList)
      (.updatePackage data) := by
  intro l hl
  have hmem := hlisted l hl
  cases hold : old l with
  | some st => exact ((hpre l).mp (Option.isSome_of_eq_some hold)).append_left
  | none =>
    refine ⟨versions[l], List.mem_append_right _ (List.mem_flatMap.mpr ⟨l, hkeys l hmem, ?_⟩)⟩
    rw [hold, ExtTreeMap.getElem?_eq_some_getElem hmem]
    exact List.mem_singleton_self _

end Versions

section Log

variable {H : Hasher}

theorem createdIn_append {v : Semver} {l l' : List DiffLogInstruction} :
    CreatedIn v (l ++ l') ↔ CreatedIn v l ∨ CreatedIn v l' := by
  simp only [CreatedIn, List.mem_append]
  exact exists_or

theorem createdIn_filter {v : Semver} {l : List DiffLogInstruction} :
    CreatedIn v (l.filter fun instr => instr.version = some v) ↔ CreatedIn v l := by
  simp [CreatedIn, DiffLogInstruction.version]

theorem createdIn_versionInstr {v : Semver} {old : Option InternalDiffLogVersionState}
    {new : Option VersionOnlyPackument} :
    CreatedIn v (versionInstr H v old new).toList ↔ old.isSome = false ∧ new.isSome := by
  cases old with
  | none => cases new <;> simp [versionInstr, CreatedIn]
  | some st =>
    cases new <;> simp only [versionInstr, CreatedIn] <;> split_ifs <;> simp

/-- The versions with a stored state are those that have been created. -/
theorem createdIn_versionLog (v : Semver) (old : Option InternalDiffLogVersionState)
    (history : List (Option VersionOnlyPackument)) :
    (versionState H old history).isSome ↔
      old.isSome ∨ CreatedIn v (versionLog H v old history) := by
  induction history generalizing old with
  | nil => simp [versionState, versionLog, CreatedIn]
  | cons o history ih =>
    rw [versionLog, createdIn_append, createdIn_versionInstr]
    change (versionState H (ParsedChange.nextVersion H old o) history).isSome ↔ _
    rw [ih, ParsedChange.nextVersion_isSome]
    cases old <;> simp

theorem createdIn_packageLog (cs : List ParsedChange) (v : Semver) :
    (ParsedChange.oldVersions (packageState H none cs))[v]?.isSome ↔
      CreatedIn v (packageLog H none cs) := by
  rw [packageState_versions_none, createdIn_versionLog v, ← filter_packageLog_none,
    createdIn_filter]
  simp

theorem not_mem_versionInstrs {instr : DiffLogInstruction} (hinstr : instr.version = none)
    (keys : List Semver) (old : Semver → Option InternalDiffLogVersionState)
    (new : Semver → Option VersionOnlyPackument) :
    instr ∉ keys.flatMap fun v => (versionInstr H v (old v) (new v)).toList := by
  intro hmem
  obtain ⟨v, -, hv⟩ := List.mem_flatMap.mp hmem
  have hversion := version_of_versionInstr (Option.mem_toList.mp hv)
  rw [hinstr] at hversion
  cases hversion

/-- The instructions of the change that creates a package. -/
theorem ordered_instrs_none {c : ParsedChange} (hlisted : LatestListed c.data c.versions) :
    KeyedLog.Ordered Admitted (c.instrs H none) := by
  have hnew : ∀ v : Semver, (none : Option InternalDiffLogVersionState).isSome ↔
      CreatedIn v [.createPackage (ParsedChange.packDataSetLatestToNone c.data).1] := by
    simp [CreatedIn]
  have hkeys : ∀ v ∈ c.versions, v ∈ c.versions.keys := fun v hv => ExtTreeMap.mem_keys.mpr hv
  have hcreate : Admitted [] (.createPackage (ParsedChange.packDataSetLatestToNone c.data).1) := by
    refine ⟨rfl, ?_⟩
    cases c.data <;> rfl
  rw [c.instrs_none, ← List.singleton_append, List.append_assoc, List.append_assoc,
    KeyedLog.ordered_append, KeyedLog.ordered_append, KeyedLog.ordered_append,
    KeyedLog.ordered_singleton, KeyedLog.ordered_singleton]
  refine ⟨hcreate, ordered_versions ExtTreeMap.nodup_keys hnew, ?_, ?_⟩
  · split_ifs with hnormal
    · refine KeyedLog.ordered_singleton.mpr ?_
      have hupdate := admitted_updatePackage (H := H) hlisted hkeys hnew
      simpa only [List.append_nil] using hupdate
    · exact KeyedLog.ordered_nil
  · have hversions := not_mem_versionInstrs (H := H)
      (show DiffLogInstruction.version .patchPackageReferences = none from rfl) c.versions.keys
      (fun _ => none) fun v => c.versions[v]?
    simp only [Admitted, List.mem_append, List.mem_singleton, List.append_nil]
    rintro (h | h | h)
    · cases h
    · exact hversions h
    · split_ifs at h <;> simp at h

/-- The instructions of a change to a known package, after instructions that have created the
versions of its state. -/
theorem ordered_instrs_some {c : ParsedChange} {st : InternalDiffLogPackageState}
    {pre : List DiffLogInstruction} (hlisted : LatestListed c.data c.versions)
    (hst : st.packagePackHash.isSome) (hpre : ∀ v, st.versions[v]?.isSome ↔ CreatedIn v pre) :
    KeyedLog.Ordered (fun before => Admitted (pre ++ before)) (c.instrs H (some st)) := by
  have hkeys : ∀ v ∈ c.versions, v ∈ FiniteMap.unionKeys st.versions c.versions := fun v hv =>
    (FiniteMap.mem_unionKeys _ _ v).mpr (.inr hv)
  rw [c.instrs_some hst, KeyedLog.ordered_append]
  refine ⟨ordered_versions (FiniteMap.nodup_unionKeys _ _) hpre, ?_⟩
  split_ifs with hsame
  · exact KeyedLog.ordered_nil
  · refine KeyedLog.ordered_singleton.mpr ?_
    have hupdate := admitted_updatePackage (H := H) hlisted hkeys hpre
    simpa only [List.append_nil] using hupdate

/-- The log of a package is ordered, by induction on its changes from the last one on. -/
theorem ordered_packageLog (cs : List ParsedChange)
    (hlisted : ∀ c ∈ cs, LatestListed c.data c.versions) :
    KeyedLog.Ordered Admitted (packageLog H none cs) := by
  induction cs using List.reverseRecOn with
  | nil => exact KeyedLog.ordered_nil
  | append_singleton cs c ih =>
    have hlast := hlisted c (by simp)
    have hcreated := createdIn_packageLog (H := H) cs
    have hhash := packageState_hash_isSome (H := H) cs
    rw [packageLog_append, KeyedLog.ordered_append, packageLog, packageLog, List.append_nil]
    refine ⟨ih fun c hc => hlisted c (List.mem_append_left _ hc), ?_⟩
    cases hst : packageState H none cs with
    | none =>
      have hnil : cs = [] := by
        cases cs using List.reverseRecOn with
        | nil => rfl
        | append_singleton cs c => simp [packageState] at hst
      rw [hnil]
      exact ordered_instrs_none hlast
    | some st =>
      rw [hst] at hcreated hhash
      exact ordered_instrs_some hlast (hhash st rfl) hcreated

/-- The log of a package is well-formed. -/
theorem wellFormedLog_packageLog {c : ParsedChange} {cs : List ParsedChange}
    (hlisted : ∀ d ∈ c :: cs, LatestListed d.data d.versions) :
    WellFormedLog (c.instrs H none) (packageLog H (some (c.nextState H none)) cs) where
  ends := ⟨_, _, by rw [c.instrs_none, List.cons_append]⟩
  ordered := ordered_packageLog (c :: cs) hlisted

theorem latestListed_parsedChanges (env : Env) (changes : List Change) :
    ∀ c ∈ parsedChanges env changes, LatestListed c.data c.versions := by
  intro c hc
  obtain ⟨change, -, hparse⟩ := List.mem_filterMap.mp hc
  obtain ⟨r, hr, hjoin⟩ := Option.map_eq_some_iff.mp (Option.join_eq_some_iff.mp hparse)
  obtain ⟨parsed, rfl, rfl⟩ := Option.map_eq_some_iff.mp hjoin
  exact Parsers.latestListed_change change _ hr parsed rfl

end Log

end NpmFollower.DiffLogBuilder
