import NpmFollower.RelationalDbBuilder.EntryEffects

/-! # The entries one by one

For each instruction, what its entry does to the tables. It panics on a missing
row only where the row that it needs is not there.
-/

namespace NpmFollower.RelationalDbBuilder

open Std PostgresDb RelationalDbAccessor EntryProcessor

variable {C : LruCaches} {w₀ : World C} {p : Prop}

section Guards

variable {P : World C → Prop}

theorem guardOr_triple {e : Panic} (he : e.isMissing = false) (b : Bool) :
    Hoare.Triple P (guardOr e b) (fun _ => P) (MissingOnly p) := by
  intro w hw
  rw [guardOr_apply]
  split_ifs
  exacts [hw, missingOnly_of_not he]

theorem expect_other_triple {α : Type} {e : Panic} (he : e.isMissing = false) (o : Option α) :
    Hoare.Triple P (expect e o) (fun _ => P) (MissingOnly p) := by
  intro w hw
  rw [expect_apply]
  cases o
  exacts [missingOnly_of_not he, hw]

theorem assertDepsEq_triple (old : List Dependency) (new : List (String × Spec)) :
    Hoare.Triple P (assertDepsEq old new) (fun _ => P) (MissingOnly p) := by
  refine Hoare.Triple.bind (guardOr_triple rfl _) fun _ => ?_
  refine Hoare.Triple.forM (old.zip new) (fun _ => P) fun _ _ _ _ => ?_
  refine Hoare.Triple.bind (guardOr_triple rfl _) fun _ => ?_
  refine Hoare.Triple.bind (guardOr_triple rfl _) fun _ => ?_
  exact guardOr_triple rfl _

theorem assertRepoEq_triple (currentData : Version) (newRepoInfo : Option RepositoryInfo) :
    Hoare.Triple P (assertRepoEq currentData newRepoInfo) (fun _ => P) (MissingOnly p) := by
  cases newRepoInfo with
  | some newRepoInfo =>
    refine Hoare.Triple.bind (expect_other_triple rfl _) fun _ => ?_
    refine Hoare.Triple.bind (expect_other_triple rfl _) fun _ => ?_
    refine Hoare.Triple.bind (guardOr_triple rfl _) fun _ => ?_
    exact guardOr_triple rfl _
  | none =>
    refine Hoare.Triple.bind (guardOr_triple rfl _) fun _ => ?_
    exact guardOr_triple rfl _

end Guards

/-- Each new dependency counts once, for its own type. -/
def CountOnce (new : List (NewDependency × DependencyType)) : Prop :=
  ∀ e ∈ new, e.1.counts = .single e.2 1

theorem CountOnce.append {a b : List (NewDependency × DependencyType)} (ha : CountOnce a)
    (hb : CountOnce b) : CountOnce (a ++ b) := fun e he =>
  (List.mem_append.mp he).elim (ha e) (hb e)

/-- The counters change by what the array of each type will have. -/
theorem changes_eq_count {new : List (NewDependency × DependencyType)} (h : CountOnce new)
    (ids : List ℤ) (t : DependencyType) (i : ℤ) :
    changes new.unzip.1 ids t i = (idsOf t ids new.unzip.2).count i := by
  induction new generalizing ids with
  | nil => simp [changes, idsOf]
  | cons e new ih =>
    cases ids with
    | nil => simp [changes, idsOf]
    | cons id ids =>
      have hih := ih (fun e' he' => h e' (List.mem_cons_of_mem _ he')) ids
      rw [changes, idsOf] at hih
      rw [changes, idsOf, List.unzip_cons, List.zip_cons_cons, List.map_cons, List.sum_cons, hih,
        h e List.mem_cons_self, FreqCounts.get_single, List.zip_cons_cons]
      by_cases ht : e.2 = t
      · rw [if_pos ht, List.filter_cons_of_pos (by simpa using ht), List.map_cons, List.count_cons]
        by_cases hi : i = id
        · simp [hi, add_comm]
        · have hi' : ¬id = i := fun h => hi h.symm
          simp [hi, hi']
      · rw [if_neg ht, List.filter_cons_of_neg (by simpa using ht)]
        simp

/-- The rows of dependencies with these ids. -/
structure RowsOf (db : Db) (ids : List ℤ) (deps : List Dependency) : Prop where
  ids : deps.map (·.id) = ids
  mem : ∀ d ∈ deps, d ∈ db.dependencies.rows

/-- What has been read of a version before it is updated or deleted. -/
structure VersionRead (db : Db) (name : String) (v : Semver) (versionId : ℤ) (row : Version)
    (deps : DependencyType → List Dependency) : Prop where
  package : HasPackage db name
  mem : row ∈ db.versions.rows
  versionId : row.id = versionId
  found : (packageIdOf db name).bind (fun id => Rows.find versionKey db.versions.rows (id, v)) = some row
  deps : ∀ t, RowsOf db (row.dependencies t) (deps t)

/-- The four lists of dependencies by their type. -/
def byType (prod dev peer optional : List Dependency) : DependencyType → List Dependency
  | .prod => prod
  | .dev => dev
  | .peer => peer
  | .optional => optional

theorem VersionRead.undercount {db : Db} {name : String} {v : Semver} {versionId : ℤ} {row : Version}
    {deps : DependencyType → List Dependency} (h : VersionRead db name v versionId row deps)
    (seq diffEntryId : ℤ) (t : DependencyType) (i : ℤ) :
    undercount db ⟨diffEntryId, seq, name, .deleteVersion v⟩ t i =
      if row.currentVersionStateType = .normal then 0 else (row.dependencies t).count i := by
  have hdeleted : deletedAgain db ⟨diffEntryId, seq, name, .deleteVersion v⟩ =
      if row.currentVersionStateType = .normal then none else some row := by
    obtain ⟨id, hid, hfind⟩ := Option.bind_eq_some_iff.mp h.found
    simp only [deletedAgain, hid, hfind, Option.bind_eq_bind, Option.bind_some]
  rw [RelationalDbBuilder.undercount, hdeleted]
  split_ifs <;> rfl

/-- The ids in the arrays of a new version have rows. -/
theorem DepsApplied.exists_row {w : World C} {deps : List NewDependency} {ids : List ℤ}
    (h : DepsApplied w₀ deps ids w) {t : DependencyType} {types : List DependencyType} {i : ℤ}
    (hi : i ∈ idsOf t ids types) : ∃ d ∈ w.conn.dependencies.rows, d.id = i := by
  obtain ⟨e, he, rfl⟩ := List.mem_map.mp hi
  have hmem : e.1 ∈ ids := (List.of_mem_zip (List.mem_of_mem_filter he)).1
  rw [← List.map_snd_zip h.length.ge] at hmem
  obtain ⟨e', he', heq⟩ := List.mem_map.mp hmem
  obtain ⟨d, hd, -, hid⟩ := h.found e' he'
  exact ⟨d, hd, hid.trans heq⟩

section Reads

variable (hC : C.Lawful)

theorem currentDeps_triple (depType : DependencyType) (row : Version) :
    Hoare.Triple (Keeps w₀) (currentDeps depType row)
      (fun deps w => Keeps w₀ w ∧ RowsOf w₀.conn (row.dependencies depType) deps) (MissingOnly p) := by
  refine Hoare.Triple.pre (Hoare.Triple.mapM _
    (fun done deps w => Keeps w₀ w ∧ RowsOf w₀.conn done deps) fun done id rest deps _ => ?_)
    fun w hw => ⟨hw, rfl, by simp⟩
  refine Hoare.Triple.of_and fun h => ?_
  refine Hoare.Triple.post (getDependencyById_triple fun _ => missingOnly_of_not rfl) ?_
  rintro d w ⟨hw, hfind⟩
  have hid : d.id = id := Rows.key_of_find hfind
  refine ⟨hw, by rw [List.map_append, h.ids, List.map_singleton, hid], fun d' hd' => ?_⟩
  rcases List.mem_append.mp hd' with hd' | hd'
  · exact h.mem d' hd'
  · rw [List.mem_singleton.mp hd']
    exact Rows.mem_of_find hfind

include hC

theorem newDependencies_triple (E : Env) (depType : DependencyType) (deps : List (String × Spec)) :
    Hoare.Triple (Keeps w₀) (newDependencies E depType deps)
      (fun new w => Keeps w₀ w ∧ CountOnce new) (MissingOnly p) := by
  refine Hoare.Triple.pre (Hoare.Triple.mapM _ (fun _ new w => Keeps w₀ w ∧ CountOnce new)
    fun done dep rest new _ => ?_) fun w hw => ⟨hw, by simp [CountOnce]⟩
  refine Hoare.Triple.of_and fun h => ?_
  refine Hoare.Triple.bind (maybeGetPackageIdByName_triple hC dep.1)
    fun dstId => Hoare.Triple.of_and fun _ => ?_
  refine Hoare.Triple.pure fun w hw => ⟨hw, h.append ?_⟩
  intro e he
  cases List.mem_singleton.mp he
  rfl

/-- The first part of an update and of a deletion, before what follows. -/
theorem readVersion_triple (hw₀ : w₀.Inv) {name : String} {v : Semver} {Q : Unit → World C → Prop}
    {k : ℤ → Version → List Dependency → List Dependency → List Dependency → List Dependency →
      Run C Unit}
    (hk : ∀ versionId row prod dev peer optional,
      VersionRead w₀.conn name v versionId row (byType prod dev peer optional) →
        Hoare.Triple (Keeps w₀) (k versionId row prod dev peer optional) Q
          (MissingOnly ¬HasVersion w₀.conn name v)) :
    Hoare.Triple (Keeps w₀) (do
      let packageId ← getPackageIdByName name
      let versionId ← getVersionIdBySemver packageId v
      let row ← getVersionById versionId
      let prod ← currentDeps .prod row
      let dev ← currentDeps .dev row
      let peer ← currentDeps .peer row
      let optional ← currentDeps .optional row
      k versionId row prod dev peer optional) Q (MissingOnly ¬HasVersion w₀.conn name v) := by
  have hpackage (hnone : packageIdOf w₀.conn name = none) : ¬HasVersion w₀.conn name v := by
    rintro ⟨id, hid, -⟩
    rw [hnone] at hid
    cases hid
  refine Hoare.Triple.bind (getPackageIdByName_triple hC fun hnone _ => hpackage hnone)
    fun packageId => Hoare.Triple.of_and fun hid => ?_
  have hversion (hnone : versionIdOf w₀.conn (packageId, v) = none) : ¬HasVersion w₀.conn name v := by
    rintro ⟨id, hid', hsome⟩
    cases hid.symm.trans hid'
    rw [hnone] at hsome
    cases hsome
  refine Hoare.Triple.bind (getVersionIdBySemver_triple hC fun hnone _ => hversion hnone)
    fun versionId => Hoare.Triple.of_and fun hversionId => ?_
  obtain ⟨row, hrow, rfl⟩ := Option.map_eq_some_iff.mp hversionId
  have hmem := Rows.mem_of_find hrow
  refine Hoare.Triple.bind (getVersionById_triple fun _ => missingOnly_of_not rfl)
    fun row' => Hoare.Triple.of_and fun hrow' => ?_
  rw [Rows.find_of_mem hw₀.versions.nodup hmem] at hrow'
  cases hrow'
  refine Hoare.Triple.bind (currentDeps_triple .prod row) fun prod => Hoare.Triple.of_and fun hprod => ?_
  refine Hoare.Triple.bind (currentDeps_triple .dev row) fun dev => Hoare.Triple.of_and fun hdev => ?_
  refine Hoare.Triple.bind (currentDeps_triple .peer row) fun peer => Hoare.Triple.of_and fun hpeer => ?_
  refine Hoare.Triple.bind (currentDeps_triple .optional row)
    fun optional => Hoare.Triple.of_and fun hoptional => ?_
  refine hk row.id row prod dev peer optional ⟨Option.isSome_of_eq_some hid, hmem, rfl, ?_, ?_⟩
  · rw [hid, Option.bind_some, hrow]
  · rintro (_ | _ | _ | _)
    exacts [hprod, hdev, hpeer, hoptional]

end Reads

section Marks

variable (hC : C.Lawful)

theorem discard_triple {α : Type} {P : World C → Prop} {Q : World C → Prop} {F : Panic → Prop}
    {x : Run C α} (h : Hoare.Triple P x (fun _ => Q) F) :
    Hoare.Triple P (discard x) (fun _ => Q) F := by
  intro w hw
  have hrun := h w hw
  have hdiscard : discard x w = match x w with
      | .ok (_, w') => .ok ((), w')
      | .error e => .error e := by
    change (do let (_, w') ← x w; pure ((), w') : Except Panic (Unit × World C)) = _
    cases x w <;> rfl
  rw [hdiscard]
  cases hx : x w with
  | ok r =>
    rw [hx] at hrun
    exact hrun
  | error e =>
    rw [hx] at hrun
    exact hrun

include hC

/-- All dependencies of a version marked, before what follows. -/
theorem markedDeps_triple (mark : Dependency → DependencyType → Dependency) (sign : ℤ)
    (hdigest : ∀ d depType, digest (mark d depType) = digest d)
    (hcounts : ∀ d depType, (mark d depType).counts = .single depType sign) {row : Version}
    {prod dev peer optional : List Dependency}
    (hdeps : ∀ t, RowsOf w₀.conn (row.dependencies t) (byType prod dev peer optional t))
    {Q : Unit → World C → Prop} {k : Run C Unit}
    (hk : Hoare.Triple (Counted w₀ fun t i => sign * (row.dependencies t).count i) k Q
      (MissingOnly p)) :
    Hoare.Triple (Counted w₀ fun _ _ => 0) (do
      discard <| insertOrIncDependencies (markAll mark .prod prod)
      discard <| insertOrIncDependencies (markAll mark .dev dev)
      discard <| insertOrIncDependencies (markAll mark .peer peer)
      discard <| insertOrIncDependencies (markAll mark .optional optional)
      k) Q (MissingOnly p) := by
  have hmarked (depType : DependencyType) (δ : DependencyType → ℤ → ℤ) :=
    discard_triple (insertMarked_triple hC.dependencyStates (p := p) δ depType
      (fun d => hdigest d depType) (fun d => hcounts d depType) (hdeps depType).mem)
  refine Hoare.Triple.bind (hmarked .prod _) fun _ => ?_
  refine Hoare.Triple.bind (hmarked .dev _) fun _ => ?_
  refine Hoare.Triple.bind (hmarked .peer _) fun _ => ?_
  refine Hoare.Triple.bind (hmarked .optional _) fun _ => ?_
  simp only [(hdeps _).ids]
  refine hk.pre fun w hw => ?_
  have hsum (t : DependencyType) (i : ℤ) : 0 +
      markChanges sign .prod (row.dependencies .prod) t i +
      markChanges sign .dev (row.dependencies .dev) t i +
      markChanges sign .peer (row.dependencies .peer) t i +
      markChanges sign .optional (row.dependencies .optional) t i =
        sign * (row.dependencies t).count i := by
    cases t <;> simp [markChanges]
  simpa only [hsum] using hw

end Marks

section Entries

variable (hC : C.Lawful) (E : Env) (hw₀ : w₀.Inv)

/-- The effect of an entry for a package of this name. -/
structure Processed (w₀ : World C) (name : String) (short : DependencyType → ℤ → ℤ) (w : World C) :
    Prop where
  effect : Effect w₀ short w
  package : HasPackage w.conn name

theorem HasPackage.processed {w : World C} {name : String} {short : DependencyType → ℤ → ℤ}
    (h : HasPackage w₀.conn name) (heffect : Effect w₀ short w) : Processed w₀ name short w := by
  obtain ⟨id, hid⟩ := Option.isSome_iff_exists.mp h
  exact ⟨heffect, Option.isSome_of_eq_some (heffect.grows.packages name id hid)⟩

theorem Effect.of_eq {w : World C} {short short' : DependencyType → ℤ → ℤ} (h : Effect w₀ short w)
    (heq : ∀ t i, short t i = short' t i) : Effect w₀ short' w :=
  (funext fun t => funext fun i => heq t i : short = short') ▸ h

theorem newPackage_eq (package : String) (seq diffEntryId : ℤ) (data : PackageOnlyPackument) :
    match newPackage E package seq diffEntryId data with
    | .ok np => np.name = package
    | .error _ => data.latest ≠ none := by
  cases data with
  | normal latest created modified otherDistTags extraVersionTimes =>
    cases latest with
    | none => rfl
    | some l => simp [newPackage, PackageOnlyPackument.latest]
  | unpublished created modified unpublishedBlob extraVersionTimes => rfl
  | missingData => rfl
  | deleted => rfl

include hC hw₀

theorem createPackage_triple (package : String) (data : PackageOnlyPackument) (seq diffEntryId : ℤ) :
    Hoare.Triple (Keeps w₀) (createPackage E package data seq diffEntryId)
      (fun _ => Processed w₀ package fun _ _ => 0) (MissingOnly (data.latest ≠ none)) := by
  have hnew := newPackage_eq E package seq diffEntryId data
  rw [createPackage]
  cases hdata : newPackage E package seq diffEntryId data with
  | error e =>
    rw [hdata] at hnew
    exact fun w _ _ => hnew
  | ok np =>
    rw [hdata] at hnew
    subst hnew
    exact Hoare.Triple.post (insertNewPackage_triple hC E np hw₀) fun _ w hw => ⟨hw.1, hw.2⟩

theorem updatePackage_entry_triple (name : String) (data : PackageOnlyPackument) (seq diffEntryId : ℤ) :
    Hoare.Triple (Keeps w₀) (EntryProcessor.updatePackage E name data seq diffEntryId)
      (fun _ => Processed w₀ name fun _ _ => 0)
      (MissingOnly ¬(HasPackage w₀.conn name ∧
        ∀ l, data.latest = some l → HasVersion w₀.conn name l)) := by
  have hmissing (hnone : packageIdOf w₀.conn name = none) : ¬(HasPackage w₀.conn name ∧
      ∀ l, data.latest = some l → HasVersion w₀.conn name l) := by
    rintro ⟨hpackage, -⟩
    rw [HasPackage, hnone] at hpackage
    cases hpackage
  refine Hoare.Triple.bind (getPackageByName_triple hC E hw₀ fun hnone =>
    ⟨fun _ => hmissing hnone, fun _ => hmissing hnone⟩) fun old => Hoare.Triple.of_and fun hold => ?_
  have hpackage : HasPackage w₀.conn name := Option.isSome_of_eq_some hold.2
  refine Hoare.Triple.bind (Q := fun _ => Keeps w₀) ?_ fun new => ?_
  · cases data with
    | normal latest created modified otherDistTags extraVersionTimes =>
      refine Hoare.Triple.bind (Q := fun _ => Keeps w₀) ?_ fun _ => Hoare.Triple.pure fun w hw => hw
      cases latest with
      | none => exact Hoare.Triple.pure fun w hw => hw
      | some l =>
        change Hoare.Triple (Keeps w₀)
          (do let id ← getVersionIdBySemver old.id l; return some id) _ _
        refine Hoare.Triple.bind (getVersionIdBySemver_triple hC fun hnone _ => ?_)
          fun id => Hoare.Triple.pure fun w hw => hw.1
        rintro ⟨-, hlatest⟩
        obtain ⟨id, hid, hsome⟩ := hlatest l rfl
        cases hold.2.symm.trans hid
        rw [hnone] at hsome
        cases hsome
    | unpublished created modified unpublishedBlob extraVersionTimes =>
      exact Hoare.Triple.bind (expect_other_triple rfl _) fun _ => Hoare.Triple.pure fun w hw => hw
    | missingData => exact Hoare.Triple.pure fun w hw => hw
    | deleted => exact Hoare.Triple.pure fun w hw => hw
  · exact Hoare.Triple.post (updatePackage_triple hC E old.id name (old.diff new) hw₀)
      fun _ w hw => hpackage.processed hw

theorem patchPackageRefs_triple (package : String) :
    Hoare.Triple (Keeps w₀) (patchPackageRefs E package)
      (fun _ => Processed w₀ package fun _ _ => 0) (MissingOnly ¬HasPackage w₀.conn package) := by
  refine Hoare.Triple.bind (getPackageIdByName_triple hC fun hnone _ => ?_)
    fun packageId => Hoare.Triple.of_and fun hid => ?_
  · rw [HasPackage, hnone]
    simp
  · have hpackage : HasPackage w₀.conn package := Option.isSome_of_eq_some hid
    exact Hoare.Triple.post (updateDepsMissingPack_triple hC E hw₀ hid)
      fun _ w hw => hpackage.processed hw

theorem createVersion_triple (package : String) (version : Semver) (data : VersionOnlyPackument)
    (seq diffEntryId : ℤ) :
    Hoare.Triple (Keeps w₀) (createVersion E package version data seq diffEntryId)
      (fun _ w => Processed w₀ package (fun _ _ => 0) w ∧ HasVersion w.conn package version)
      (MissingOnly ¬HasPackage w₀.conn package) := by
  refine Hoare.Triple.bind (guardOr_triple rfl _) fun _ => ?_
  refine Hoare.Triple.bind (guardOr_triple rfl _) fun _ => ?_
  refine Hoare.Triple.bind (guardOr_triple rfl _) fun _ => ?_
  refine Hoare.Triple.bind (guardOr_triple rfl _) fun _ => ?_
  refine Hoare.Triple.bind (getPackageIdByName_triple hC fun hnone _ => ?_)
    fun packageId => Hoare.Triple.of_and fun hid => ?_
  · rw [HasPackage, hnone]
    simp
  refine Hoare.Triple.bind (newDependencies_triple hC E _ _) fun prod => Hoare.Triple.of_and fun hprod => ?_
  refine Hoare.Triple.bind (newDependencies_triple hC E _ _) fun dev => Hoare.Triple.of_and fun hdev => ?_
  refine Hoare.Triple.bind (newDependencies_triple hC E _ _) fun peer => Hoare.Triple.of_and fun hpeer => ?_
  refine Hoare.Triple.bind (newDependencies_triple hC E _ _)
    fun optional => Hoare.Triple.of_and fun hoptional => ?_
  have honce := ((hprod.append hdev).append hpeer).append hoptional
  generalize prod ++ dev ++ peer ++ optional = new at honce ⊢
  have hpackage : HasPackage w₀.conn package := Option.isSome_of_eq_some hid
  refine Hoare.Triple.bind (Hoare.Triple.pre
    (insertOrIncDependencies_triple hC.dependencyStates w₀ [] [] new.unzip.1)
    fun w hw => DepsApplied.nil hw hw₀) fun ids => ?_
  rw [List.nil_append, List.nil_append]
  refine Hoare.Triple.conseq (insertNewVersion_triple hC
    _ rfl) (fun w hw => ⟨hw.toCounted.effect, ?_⟩)
    (fun _ w hw => ?_) fun _ h => h
  · intro t i hi
    have hi' : i ∈ idsOf t ids new.unzip.2 := by
      cases t <;> exact hi
    exact hw.exists_row hi'
  · obtain ⟨heffect, hsome⟩ := hw
    have hbalanced : Effect w₀ (fun _ _ => 0) w := heffect.of_eq fun t i => by
      rw [changes_eq_count honce]
      cases t <;> exact neg_add_cancel _
    exact ⟨hpackage.processed hbalanced,
      packageId, hbalanced.grows.packages package packageId hid, hsome⟩

theorem updateVersion_triple (name : String) (version : Semver) (data : VersionOnlyPackument)
    (seq diffEntryId : ℤ) :
    Hoare.Triple (Keeps w₀) (updateVersion name version data seq diffEntryId)
      (fun _ => Processed w₀ name fun _ _ => 0) (MissingOnly ¬HasVersion w₀.conn name version) := by
  refine readVersion_triple hC hw₀ fun versionId row prod dev peer optional hread => ?_
  refine Hoare.Triple.bind (assertDepsEq_triple _ _) fun _ => ?_
  refine Hoare.Triple.bind (assertDepsEq_triple _ _) fun _ => ?_
  refine Hoare.Triple.bind (assertDepsEq_triple _ _) fun _ => ?_
  refine Hoare.Triple.bind (assertDepsEq_triple _ _) fun _ => ?_
  refine Hoare.Triple.bind (guardOr_triple rfl _) fun _ => ?_
  refine Hoare.Triple.bind (assertRepoEq_triple _ _) fun _ => ?_
  have hprocessed {w : World C} (hw : Effect w₀ (fun _ _ => 0) w) := hread.package.processed hw
  have htail : Hoare.Triple (Effect w₀ fun _ _ => 0)
      (if row.extraMetadata != Value.object data.extraMetadata.toList then
        query (Versions.setVersionExtraMetadata versionId (.object data.extraMetadata.toList))
      else pure () : Run C Unit)
      (fun _ => Processed w₀ name fun _ _ => 0) (MissingOnly ¬HasVersion w₀.conn name version) := by
    split_ifs
    · exact Hoare.Triple.post (setVersionExtraMetadata_triple _ _) fun _ w hw => hprocessed hw
    · exact Hoare.Triple.pure fun w hw => hprocessed hw
  dsimp only
  by_cases hstate : row.currentVersionStateType ≠ .normal
  · rw [if_pos hstate]
    refine Hoare.Triple.bind (guardOr_triple rfl _) fun _ => ?_
    refine Hoare.Triple.pre (markedDeps_triple hC .markAsAdd 1 (fun _ _ => rfl) (fun _ _ => rfl)
      hread.deps ?_) fun w hw => hw.counted hw₀
    obtain rfl := hread.versionId
    refine Hoare.Triple.bind (Hoare.Triple.pre (setState_triple .normal row _ _ _)
      fun w hw => ⟨hw.effect, hw.versions ▸ hread.mem⟩) fun _ => ?_
    refine htail.pre fun w hw => hw.of_eq fun t i => ?_
    rw [liveCount, if_pos rfl, if_neg hstate]
    ring
  · rw [if_neg hstate]
    exact htail.pre fun w hw => by
      have heffect := (hw.counted hw₀).effect
      simpa only [neg_zero] using heffect

theorem deleteVersion_triple (name : String) (version : Semver) (seq diffEntryId : ℤ) :
    Hoare.Triple (Keeps w₀) (deleteVersion name version seq diffEntryId)
      (fun _ => Processed w₀ name fun t i => undercount w₀.conn ⟨diffEntryId, seq, name, .deleteVersion version⟩ t i)
      (MissingOnly ¬HasVersion w₀.conn name version) := by
  refine readVersion_triple hC hw₀ fun versionId row prod dev peer optional hread => ?_
  refine Hoare.Triple.pre (markedDeps_triple hC .markAsDelete (-1) (fun _ _ => rfl) (fun _ _ => rfl)
    hread.deps ?_) fun w hw => hw.counted hw₀
  obtain rfl := hread.versionId
  refine Hoare.Triple.conseq (setState_triple .deleted row _ _ _)
    (fun w hw => ⟨hw.effect, hw.versions ▸ hread.mem⟩) (fun _ w hw => ?_) fun _ h => h
  refine hread.package.processed (hw.of_eq fun t i => ?_)
  rw [hread.undercount, liveCount, if_neg (by decide)]
  by_cases hstate : row.currentVersionStateType = .normal
  · rw [if_pos hstate, if_pos hstate]
    push_cast
    ring
  · rw [if_neg hstate, if_neg hstate]
    ring

/-- The effect of an entry; a version that it creates has a row afterwards. -/
theorem processEntry_triple (e : DiffLogEntry) :
    Hoare.Triple (Keeps w₀) (processEntry E e)
      (fun _ w => Processed w₀ e.packageName (fun t i => undercount w₀.conn e t i) w ∧
        ∀ v data, e.instr = .createVersion v data → HasVersion w.conn e.packageName v)
      (MissingOnly ¬Expected w₀.conn e) := by
  obtain ⟨id, seq, name, instr⟩ := e
  cases instr with
  | createPackage data =>
    exact (createPackage_triple hC E hw₀ name data seq id).post fun _ w hw =>
      ⟨hw, fun v data h => by cases h⟩
  | updatePackage data =>
    exact (updatePackage_entry_triple hC E hw₀ name data seq id).post fun _ w hw =>
      ⟨hw, fun v data h => by cases h⟩
  | patchPackageReferences =>
    exact (patchPackageRefs_triple hC E hw₀ name).post fun _ w hw =>
      ⟨hw, fun v data h => by cases h⟩
  | createVersion v data =>
    exact (createVersion_triple hC E hw₀ name v data seq id).post fun _ w hw =>
      ⟨hw.1, fun v' data' h => by cases h; exact hw.2⟩
  | updateVersion v data =>
    exact (updateVersion_triple hC hw₀ name v data seq id).post fun _ w hw =>
      ⟨hw, fun v data h => by cases h⟩
  | deleteVersion v =>
    exact (deleteVersion_triple hC hw₀ name v seq id).post fun _ w hw =>
      ⟨hw, fun v data h => by cases h⟩

end Entries

end NpmFollower.RelationalDbBuilder
