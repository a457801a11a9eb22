import NpmFollower.DiffLogBuilder.ProcessChange
import NpmFollower.PostgresDb.Flush

/-! # What a change does to the hash state

The instructions of a change, applied one after the other, never panic on a
state whose package has its hash. They leave the hash of the package data, move
every version by `nextVersion`, and raise the flush flag exactly when the change
brings a new package, new package data or a new version.
-/

namespace NpmFollower

open Std PostgresDb

namespace PostgresDb

/-- Applying the entries of one package in order. -/
def LocalState.applyAll (s : LocalState) (es : List NewDiffLogEntryWithHash) : Option LocalState :=
  es.foldlM (fun s e => s.apply e.hash e.entry.instr) s

theorem LocalState.applyAll_append (s : LocalState) (es es' : List NewDiffLogEntryWithHash) :
    s.applyAll (es ++ es') = (s.applyAll es).bind fun s' => s'.applyAll es' := by
  simp [applyAll, List.foldlM_append]

theorem LocalState.applyAll_cons (s : LocalState) (e : NewDiffLogEntryWithHash)
    (es : List NewDiffLogEntryWithHash) :
    s.applyAll (e :: es) = (s.apply e.hash e.entry.instr).bind fun s' => s'.applyAll es := by
  simp [applyAll]

@[simp] theorem LocalState.applyAll_nil (s : LocalState) : s.applyAll [] = some s := rfl

theorem LocalState.apply_createPackage (data : PackageOnlyPackument) (hash : Option String) :
    LocalState.apply (none, .nothing) hash (.createPackage data) = some (some ⟨hash, ∅⟩, .create) :=
  rfl

theorem LocalState.apply_updatePackage (st : InternalDiffLogPackageState) (f : FlushOp) (h : String)
    (data : PackageOnlyPackument) : LocalState.apply (some st, f) (some h) (.updatePackage data) =
      some (some { st with packagePackHash := some h }, f.orSet) :=
  rfl

theorem LocalState.apply_patchPackageReferences (s : LocalState) (hash : Option String) :
    s.apply hash .patchPackageReferences = some s :=
  rfl

/-- The flag after a change that has or has not brought something to write. -/
def FlushOp.raise (f : FlushOp) (news : Bool) : FlushOp := if news then f.orSet else f

@[simp] theorem FlushOp.raise_false (f : FlushOp) : f.raise false = f := rfl

@[simp] theorem FlushOp.raise_true (f : FlushOp) : f.raise true = f.orSet := rfl

theorem FlushOp.raise_orSet (f : FlushOp) (b : Bool) : (f.raise b).orSet = f.orSet := by
  cases f <;> cases b <;> rfl

theorem FlushOp.create_raise (b : Bool) : FlushOp.create.raise b = .create := by
  cases b <;> rfl

theorem FlushOp.raise_raise (f : FlushOp) (a b : Bool) :
    (f.raise a).raise b = f.raise (a || b) := by
  cases f <;> cases a <;> cases b <;> rfl

end PostgresDb

namespace DiffLogBuilder

namespace ParsedChange

variable (H : Hasher) (c : ParsedChange)

/-- The state of a version after a change. A deleted version stays marked as deleted. -/
def nextVersion : Option InternalDiffLogVersionState → Option VersionOnlyPackument →
    Option InternalDiffLogVersionState
  | none, none => none
  | none, some d => some ⟨H.versionHash d, false⟩
  | some old, none => some { old with deleted := true }
  | some old, some d => some { old with versionPackHash := H.versionHash d }

def oldVersions (st : Option InternalDiffLogPackageState) :
    BTreeMap Semver InternalDiffLogVersionState :=
  (st.map (·.versions)).getD ∅

def nextState (st : Option InternalDiffLogPackageState) : InternalDiffLogPackageState where
  packagePackHash := some (H.packageHash c.data)
  versions := FiniteMap.tabulate (FiniteMap.unionKeys (oldVersions st) c.versions) fun v =>
    nextVersion H (oldVersions st)[v]? c.versions[v]?

/-- The change has a version that the state does not know. -/
def isNewVersion (st : InternalDiffLogPackageState) (v : Semver) : Bool :=
  st.versions[v]?.isNone && c.versions[v]?.isSome

/-- The change has package data or a version that the state does not know. -/
def isNews (st : InternalDiffLogPackageState) : Bool :=
  (FiniteMap.unionKeys st.versions c.versions).any (c.isNewVersion st) ||
    st.packagePackHash ≠ some (H.packageHash c.data)

def nextLocal (s : LocalState) : LocalState :=
  (some (c.nextState H s.1),
    match s.1 with
    | none => .create
    | some st => s.2.raise (c.isNews H st))

theorem nextVersion_isSome (old : Option InternalDiffLogVersionState)
    (new : Option VersionOnlyPackument) :
    (nextVersion H old new).isSome ↔ old.isSome ∨ new.isSome := by
  cases old <;> cases new <;> simp [nextVersion]

theorem nextState_versions (st : Option InternalDiffLogPackageState) (v : Semver) :
    (c.nextState H st).versions[v]? = nextVersion H (oldVersions st)[v]? c.versions[v]? := by
  refine FiniteMap.getElem?_tabulate (FiniteMap.nodup_unionKeys _ _)
    (fun v : Semver => nextVersion H (oldVersions st)[v]? c.versions[v]?) v ?_
  intro h
  rw [FiniteMap.mem_unionKeys]
  simpa [nextVersion_isSome] using h

/-- A state is the next one when its hash and all its versions are. -/
theorem eq_nextState {st : Option InternalDiffLogPackageState} {st' : InternalDiffLogPackageState}
    (hhash : st'.packagePackHash = some (H.packageHash c.data))
    (hversions : ∀ v : Semver, st'.versions[v]? = nextVersion H (oldVersions st)[v]? c.versions[v]?) :
    st' = c.nextState H st := by
  obtain ⟨hash, versions⟩ := st'
  have hv : versions = (c.nextState H st).versions :=
    ExtTreeMap.ext_getElem? fun v => (hversions v).trans (c.nextState_versions H st v).symm
  change hash = _ at hhash
  rw [hhash, hv]
  rfl

section Versions

variable (st : InternalDiffLogPackageState) (f : FlushOp)

/-- The instruction of one version moves this version and no other. -/
theorem applyAll_diffVersion (v : Semver) (new : Option VersionOnlyPackument) :
    ∃ versions, LocalState.applyAll (some st, f)
        ((c.diffVersion H v st.versions[v]? new).map Prod.fst) =
        some (some { st with versions := versions },
          f.raise (st.versions[v]?.isNone && new.isSome)) ∧
      ∀ w, versions[w]? = if v = w then nextVersion H st.versions[v]? new else st.versions[w]? := by
  cases hold : st.versions[v]? with
  | none =>
    cases new with
    | none =>
      refine ⟨st.versions, by simp [diffVersion, LocalState.applyAll], fun w => ?_⟩
      split_ifs with hw
      · rw [← hw, hold]
        rfl
      · rfl
    | some d =>
      have hmem : v ∉ st.versions := by simpa using hold
      refine ⟨st.versions.insert v ⟨H.versionHash d, false⟩, ?_, fun w => ?_⟩
      · simp [diffVersion, generateCreateVersionInstr, entry, LocalState.applyAll,
          LocalState.apply, hmem]
      · rw [FiniteMap.getElem?_insert]
        rfl
  | some old =>
    cases new with
    | none =>
      cases hdel : old.deleted with
      | true =>
        refine ⟨st.versions, by simp [diffVersion, hdel, LocalState.applyAll], fun w => ?_⟩
        split_ifs with hw
        · rw [← hw, hold]
          simp [nextVersion, ← hdel]
        · rfl
      | false =>
        refine ⟨st.versions.insert v { old with deleted := true }, ?_, fun w => ?_⟩
        · simp [diffVersion, hdel, entry, LocalState.applyAll, LocalState.apply, hold]
        · rw [FiniteMap.getElem?_insert]
          rfl
    | some d =>
      by_cases hhash : old.versionPackHash = H.versionHash d
      · refine ⟨st.versions, by simp [diffVersion, hhash, LocalState.applyAll], fun w => ?_⟩
        split_ifs with hw
        · rw [← hw, hold]
          simp [nextVersion, ← hhash]
        · rfl
      · refine ⟨st.versions.insert v { old with versionPackHash := H.versionHash d }, ?_,
          fun w => ?_⟩
        · simp [diffVersion, hhash, entry, LocalState.applyAll, LocalState.apply, hold]
        · rw [FiniteMap.getElem?_insert]
          rfl

/-- The loop over the versions, for any list of distinct keys. -/
theorem applyAll_versions {keys : List Semver} (hkeys : keys.Nodup) :
    ∃ versions, LocalState.applyAll (some st, f)
        ((keys.flatMap fun v => c.diffVersion H v st.versions[v]? c.versions[v]?).map Prod.fst) =
        some (some { st with versions := versions }, f.raise (keys.any (c.isNewVersion st))) ∧
      ∀ w, versions[w]? =
        if w ∈ keys then nextVersion H st.versions[w]? c.versions[w]? else st.versions[w]? := by
  induction keys generalizing st f with
  | nil => exact ⟨st.versions, by simp [LocalState.applyAll], fun w => by simp⟩
  | cons v keys ih =>
    obtain ⟨hv, hkeys⟩ := List.nodup_cons.mp hkeys
    obtain ⟨versions, hhead, hversions⟩ := c.applyAll_diffVersion H st f v c.versions[v]?
    -- the keys that are left still have their old states
    have hrest (w : Semver) (hw : w ∈ keys) : versions[w]? = st.versions[w]? := by
      rw [hversions, if_neg]
      rintro rfl
      exact hv hw
    obtain ⟨versions', htail, hversions'⟩ := ih { st with versions := versions }
      (f.raise (c.isNewVersion st v)) hkeys
    refine ⟨versions', ?_, fun w => ?_⟩
    · have hsame : (keys.flatMap fun v => c.diffVersion H v versions[v]? c.versions[v]?) =
          keys.flatMap fun v => c.diffVersion H v st.versions[v]? c.versions[v]? := by
        apply List.flatMap_congr
        intro w hw
        rw [hrest w hw]
      have hnew : keys.any (c.isNewVersion { st with versions := versions }) =
          keys.any (c.isNewVersion st) := by
        rw [Bool.eq_iff_iff, List.any_eq_true, List.any_eq_true]
        refine exists_congr fun w => and_congr_right fun hw => ?_
        rw [isNewVersion, isNewVersion, hrest w hw]
      rw [List.flatMap_cons, List.map_append, LocalState.applyAll_append, hhead, Option.bind_some,
        ← hsame]
      change LocalState.applyAll (_, f.raise (c.isNewVersion st v)) _ = _
      rw [htail, FlushOp.raise_raise, hnew, List.any_cons]
    · rw [hversions' w]
      by_cases hw : w ∈ keys
      · simp [hw, hrest w hw]
      · by_cases hvw : v = w
        · subst hvw
          simp [hw, hversions]
        · simp [hw, hversions, hvw, Ne.symm hvw]

end Versions

theorem applyAll_updateInstrs (st : InternalDiffLogPackageState) (f : FlushOp)
    (hst : st.packagePackHash.isSome) : ∃ instrs, c.updateInstrs H st = some instrs ∧
      LocalState.applyAll (some st, f) (instrs.map Prod.fst) = some (c.nextLocal H (some st, f)) := by
  obtain ⟨hash, hhash⟩ := Option.isSome_iff_exists.mp hst
  obtain ⟨versions, happly, hversions⟩ := c.applyAll_versions H st f
    (FiniteMap.nodup_unionKeys st.versions c.versions)
  have hnext : (⟨some (H.packageHash c.data), versions⟩ : InternalDiffLogPackageState) =
      c.nextState H (some st) := by
    refine c.eq_nextState H rfl fun v => (hversions v).trans ?_
    split_ifs with hv
    · rfl
    · rw [FiniteMap.mem_unionKeys] at hv
      have hst : st.versions[v]? = none := by simpa using fun h => hv (.inl h)
      have hc : c.versions[v]? = none := by simpa using fun h => hv (.inr h)
      simp [oldVersions, hst, hc, nextVersion]
  refine ⟨_, by simp only [updateInstrs, hhash, Option.bind_eq_bind, Option.bind_some]; rfl, ?_⟩
  rw [List.map_append, LocalState.applyAll_append, happly, Option.bind_some, nextLocal, ← hnext]
  by_cases hdata : hash = H.packageHash c.data
  · simp [isNews, hhash, hdata]
  · simp [LocalState.applyAll_cons, LocalState.apply_updatePackage, entry, isNews, hhash, hdata,
      FlushOp.raise_orSet]

/-- Creating every version is the loop over the versions of a package without any. -/
theorem generateCreateVersionInstrs_eq :
    c.versions.toList.map (fun e => c.generateCreateVersionInstr H e.1 e.2) =
      c.versions.keys.flatMap fun v => c.diffVersion H v none c.versions[v]? := by
  rw [← ExtTreeMap.map_fst_toList_eq_keys, List.flatMap_map, List.map_eq_flatMap]
  apply List.flatMap_congr
  rintro ⟨v, d⟩ he
  have hv : c.versions[v]? = some d := ExtTreeMap.mem_toList_iff_getElem?_eq_some.mp he
  simp [hv, diffVersion]

/-- A new package is created with some hash and without versions; the versions follow. -/
theorem applyAll_generateCreateVersionInstrs (hash : Option String) : ∃ versions,
    LocalState.applyAll (some ⟨hash, ∅⟩, .create)
      ((c.versions.toList.map fun e => c.generateCreateVersionInstr H e.1 e.2).map Prod.fst) =
      some (some ⟨hash, versions⟩, .create) ∧
    ⟨some (H.packageHash c.data), versions⟩ = c.nextState H none := by
  obtain ⟨versions, happly, hversions⟩ := c.applyAll_versions H ⟨hash, ∅⟩ .create
    (ExtTreeMap.nodup_keys (t := c.versions))
  refine ⟨versions, ?_, c.eq_nextState H rfl fun v => (hversions v).trans ?_⟩
  · rw [c.generateCreateVersionInstrs_eq H]
    simpa only [ExtTreeMap.getElem?_empty, FlushOp.create_raise] using happly
  · split_ifs with hv
    · rfl
    · rw [ExtTreeMap.mem_keys] at hv
      have hc : c.versions[v]? = none := by simpa using hv
      simp [oldVersions, hc, nextVersion]

theorem applyAll_createInstrs :
    LocalState.applyAll (none, .nothing) ((c.createInstrs H).map Prod.fst) =
      some (c.nextLocal H (none, .nothing)) := by
  obtain ⟨⟨data, didRemove⟩, hpack⟩ : ∃ r, packDataSetLatestToNone c.data = r := ⟨_, rfl⟩
  obtain ⟨versions, happly, hnext⟩ := c.applyAll_generateCreateVersionInstrs H
    (if didRemove then none else some (H.packageHash c.data))
  rw [createInstrs, hpack]
  simp only [List.map_append, List.map_cons, List.map_nil, List.cons_append,
    List.append_assoc, LocalState.applyAll_cons, entry, LocalState.apply_createPackage,
    Option.bind_some, LocalState.applyAll_append, LocalState.applyAll_nil]
  rw [happly]
  cases didRemove with
  | true =>
    simp [LocalState.applyAll_cons, LocalState.apply_updatePackage,
      LocalState.apply_patchPackageReferences, nextLocal, ← hnext, FlushOp.orSet]
  | false =>
    simp [LocalState.apply_patchPackageReferences, nextLocal, ← hnext]

/-- The instructions of a change take a settled state to the next one. -/
theorem applyAll_diffInstrs {row : Option InternalDiffLogStateRow} {s : LocalState}
    (hs : s.Settled row) : ∃ instrs, c.diffInstrs H s.1 = some instrs ∧
      s.applyAll (instrs.map Prod.fst) = some (c.nextLocal H s) := by
  obtain ⟨st, f⟩ := s
  cases st with
  | none =>
    have hf : f = .nothing := (hs.unknown rfl).2
    rw [hf]
    exact ⟨_, rfl, c.applyAll_createInstrs H⟩
  | some st => exact c.applyAll_updateInstrs H st f (hs.hash st rfl)

theorem nextLocal_settled {row : Option InternalDiffLogStateRow} {s : LocalState}
    (hs : s.Settled row) : (c.nextLocal H s).Settled row := by
  obtain ⟨st, f⟩ := s
  refine ⟨by rintro st' ⟨⟩; rfl, by rintro ⟨⟩, ?_, ?_, ?_⟩
  all_goals
    cases st with
    | none =>
      have hrow := (hs.unknown rfl).1
      simp_all [nextLocal]
    | some st =>
      have hcreate := hs.create
      have hset := hs.set
      have hnothing := hs.nothing
      cases f <;> cases hnews : c.isNews H st <;>
        simp_all [nextLocal, FlushOp.orSet, Option.isSome_iff_ne_none]

end ParsedChange

end DiffLogBuilder

end NpmFollower
