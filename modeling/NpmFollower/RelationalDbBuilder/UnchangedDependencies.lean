import NpmFollower.RelationalDbBuilder.StoredDependencies

/-! # Unchanged dependencies

Where no two dependencies of a log clash in their keys, every version refers to
rows with the names and specs of its own dependencies. An update that brings the
same dependencies then finds them unchanged.
-/

namespace NpmFollower.RelationalDbBuilder

open Std PostgresDb RelationalDbAccessor EntryProcessor

variable {C : LruCaches} (E : Env)

/-- The panics of the comparison of the old and the new dependencies. -/
def dependencyChanged : List Panic :=
  [.assertion "current_deps.len() == new_deps.len()", .assertion "Dependency package name changed",
    .assertion "Dependency raw spec changed", .assertion "Dependency parsed spec changed"]

/-- The row has the name and the spec of the dependency. -/
def RowMatches (d : Dependency) (dep : String × Spec) : Prop :=
  d.dstPackageName = dep.1 ∧ (d.rawSpec == dep.2.raw) = true ∧ d.spec = dep.2.parsed

/-- The versions that the entries have created refer to the rows of their own dependencies. -/
def RefersRight (entries : List DiffLogEntry) (db : Db) : Prop :=
  ∀ e ∈ entries, ∀ v data, e.instr = .createVersion v data → ∃ packageId row,
    packageIdOf db e.packageName = some packageId ∧
      Rows.find versionKey db.versions.rows (packageId, v) = some row ∧
        ∀ t, List.Forall₂ (fun id dep => ∃ d ∈ db.dependencies.rows, d.id = id ∧ RowMatches d dep)
          (row.dependencies t) (dependenciesOf data t)

/-- An update of such a version with the same dependencies does not find them changed. -/
def UpdatesPass (entries : List DiffLogEntry) (w : World C) : Prop :=
  ∀ e ∈ entries, ∀ v data, e.instr = .createVersion v data → ∀ id seq data',
    (∀ t, dependenciesOf data' t = dependenciesOf data t) →
      ∀ p, processEntry E ⟨id, seq, e.packageName, .updateVersion v data'⟩ w = .error p →
        p ∉ dependencyChanged

section Panics

variable {P : World C → Prop} {F : Panic → Prop}

theorem guardOr_fails {p : Panic} (hF : F p) (b : Bool) :
    Hoare.Triple P (guardOr p b : Run C Unit) (fun _ => P) F := by
  cases b with
  | false => exact Hoare.Triple.throw fun _ _ => hF
  | true => exact Hoare.Triple.pure fun _ h => h

theorem expect_fails {α : Type} {p : Panic} (hF : F p) (o : Option α) :
    Hoare.Triple P (expect p o : Run C α) (fun _ => P) F := by
  cases o with
  | none => exact Hoare.Triple.throw fun _ _ => hF
  | some a => exact Hoare.Triple.pure fun _ h => h

/-- A comparison of a list of rows with the dependencies that they match. -/
theorem assertDepsEq_passes {old : List Dependency} {new : List (String × Spec)}
    (h : List.Forall₂ RowMatches old new) :
    Hoare.Triple P (assertDepsEq old new) (fun _ => P) F := by
  have hguard {p : Panic} {b : Bool} (hb : b = true) :
      Hoare.Triple P (guardOr p b : Run C Unit) (fun _ => P) F := by
    rw [hb]
    exact Hoare.Triple.pure fun _ hw => hw
  refine Hoare.Triple.bind (hguard (by simpa using h.length_eq)) fun _ => ?_
  refine Hoare.Triple.forM (old.zip new) (fun _ => P) fun done e rest hzip => ?_
  obtain ⟨d, dep⟩ := e
  have hmem : (d, dep) ∈ old.zip new := by simp [hzip]
  obtain ⟨hname, hraw, hspec⟩ := List.forall₂_zip h hmem
  refine Hoare.Triple.bind (hguard (by simpa using hname)) fun _ => ?_
  exact Hoare.Triple.bind (hguard hraw) fun _ => hguard (by simpa using hspec)

theorem assertRepoEq_fails (currentData : Version) (repo : Option RepositoryInfo)
    (hF : ∀ text ∈ ["Repo changed (1)", "Repo changed (2)", "Repo changed (3)", "Repo changed (4)",
      "Repo changed (5)", "Repo changed (6)"], F (.assertion text)) :
    Hoare.Triple P (assertRepoEq currentData repo) (fun _ => P) F := by
  cases repo with
  | some r =>
    refine Hoare.Triple.bind (expect_fails (hF _ (by simp)) _) fun _ => ?_
    refine Hoare.Triple.bind (expect_fails (hF _ (by simp)) _) fun _ => ?_
    refine Hoare.Triple.bind (guardOr_fails (hF _ (by simp)) _) fun _ => ?_
    exact guardOr_fails (hF _ (by simp)) _
  | none =>
    refine Hoare.Triple.bind (guardOr_fails (hF _ (by simp)) _) fun _ => ?_
    exact guardOr_fails (hF _ (by simp)) _

/-- The panic of a statement is the panic of the call. -/
theorem query_fails {α : Type} {q : Query α}
    (h : Hoare.Triple (fun _ => True) q (fun _ _ => True) F) :
    Hoare.Triple (fun _ : World C => True) (query q) (fun _ _ => True) F := by
  intro w _
  have hrun := h w.conn trivial
  rw [query]
  cases hq : q w.conn with
  | ok r => trivial
  | error p =>
    rw [hq] at hrun
    exact hrun

theorem insertDependencyIncCounts_fails (dep : NewDependency)
    (hinsert : F (.database "Error inserting dependency")) :
    Hoare.Triple (fun _ => True) (Dependencies.insertDependencyIncCounts dep) (fun _ _ => True) F := by
  intro db _
  rw [insertDependencyIncCounts_eq]
  by_cases hnext : db.dependencies.nextId < 2 ^ 63
  · rw [if_pos hnext]
    cases Rows.find digest db.dependencies.rows dep.md5digestWithVersion with
    | some row =>
      dsimp only
      cases row.counts.add dep.counts with
      | some counts => trivial
      | none => exact hinsert
    | none =>
      dsimp only
      split_ifs
      exacts [trivial, hinsert]
  · rw [if_neg hnext]
    exact hinsert

theorem setDependencyCounts_fails (depId : ℤ) (counts : FreqCounts)
    (hset : F (.assertion "rows = 1")) :
    Hoare.Triple (fun _ => True) (Dependencies.setDependencyCounts depId counts) (fun _ _ => True)
      F := by
  intro db _
  simp only [Dependencies.setDependencyCounts, Hoare.bind_apply, Hoare.get_apply, guardOr_apply]
  split_ifs
  exacts [trivial, hset]

theorem insertOrIncDependency_fails (dep : NewDependency) (hoverflow : F .overflow)
    (hinsert : F (.database "Error inserting dependency")) (hset : F (.assertion "rows = 1")) :
    Hoare.Triple (fun _ : World C => True) (insertOrIncDependency dep) (fun _ _ => True) F := by
  have hupdate (f : RelationalDbAccessor C → RelationalDbAccessor C) :
      Hoare.Triple (fun _ => True) (update f) (fun _ _ => True) F :=
    Hoare.Triple.modifyState fun _ _ => trivial
  have hflush (evicted : Option (String × DependencyState)) :
      Hoare.Triple (fun _ : World C => True) (flushEvicted evicted) (fun _ _ => True) F := by
    cases evicted with
    | none => exact Hoare.Triple.pure fun _ _ => trivial
    | some e =>
      refine Hoare.Triple.bind (Q := fun _ _ => True) (Hoare.Triple.get fun _ _ => trivial) fun w => ?_
      split_ifs
      · exact Hoare.Triple.bind (hupdate _) fun _ => query_fails (setDependencyCounts_fails _ _ hset)
      · exact Hoare.Triple.pure fun _ _ => trivial
  refine Hoare.Triple.bind (Q := fun _ _ => True) (Hoare.Triple.get fun _ _ => trivial) fun w => ?_
  split
  · refine Hoare.Triple.bind (hupdate _) fun _ => ?_
    refine Hoare.Triple.bind (expect_fails hoverflow _) fun counts => ?_
    exact Hoare.Triple.bind (hupdate _) fun _ => Hoare.Triple.pure fun _ _ => trivial
  · refine Hoare.Triple.bind (query_fails (insertDependencyIncCounts_fails dep hinsert)) fun r => ?_
    refine Hoare.Triple.bind (Q := fun _ _ => True) (Hoare.Triple.get fun _ _ => trivial) fun w => ?_
    refine Hoare.Triple.bind (hupdate _) fun _ => ?_
    exact Hoare.Triple.bind (hflush _) fun _ => Hoare.Triple.pure fun _ _ => trivial

theorem insertOrIncDependencies_fails (deps : List NewDependency) (hoverflow : F .overflow)
    (hinsert : F (.database "Error inserting dependency")) (hset : F (.assertion "rows = 1")) :
    Hoare.Triple (fun _ : World C => True) (insertOrIncDependencies deps) (fun _ _ => True) F :=
  Hoare.Triple.mapM _ (fun _ _ _ => True) fun _ dep _ _ _ =>
    insertOrIncDependency_fails dep hoverflow hinsert hset

theorem insertMarked_fails (mark : Dependency → DependencyType → Dependency) (t : DependencyType)
    (deps : List Dependency) (hoverflow : F .overflow)
    (hinsert : F (.database "Error inserting dependency")) (hset : F (.assertion "rows = 1")) :
    Hoare.Triple (fun _ : World C => True)
      (discard <| insertOrIncDependencies (markAll mark t deps)) (fun _ _ => True) F :=
  Hoare.Triple.bind (insertOrIncDependencies_fails _ hoverflow hinsert hset)
    fun _ => Hoare.Triple.pure fun _ _ => trivial

theorem setState_fails (state : VersionStateType) (versionId seq diffEntryId : ℤ)
    (hF : F (.database "Error getting package")) :
    Hoare.Triple (fun _ => True) (Versions.setState state versionId seq diffEntryId none)
      (fun _ _ => True) F := by
  intro db _
  simp only [Versions.setState, Versions.getVersionById, Hoare.bind_apply, Hoare.get_apply,
    expect_apply, Versions.updateWhereId, Hoare.modify_apply]
  cases Rows.find Version.id db.versions.rows versionId with
  | none => exact hF
  | some row => trivial

theorem setVersionExtraMetadata_fails (versionId : ℤ) (data : Value)
    (hF : F (.assertion "Error updating version extra metadata")) :
    Hoare.Triple (fun _ => True) (Versions.setVersionExtraMetadata versionId data)
      (fun _ _ => True) F := by
  intro db _
  simp only [Versions.setVersionExtraMetadata, Hoare.bind_apply, Hoare.get_apply, guardOr_apply,
    Versions.updateWhereId, Hoare.modify_apply]
  split_ifs
  exacts [trivial, hF]

end Panics

section Update

variable {w₀ : World C}

/-- The current rows, in the order of the ids. -/
theorem currentDeps_found {F : Panic → Prop} (hF : F (.database "Error getting dep by id"))
    (t : DependencyType) (row : Version) :
    Hoare.Triple (Keeps w₀) (currentDeps t row) (fun deps w => Keeps w₀ w ∧
      List.Forall₂ (fun d id => d ∈ w₀.conn.dependencies.rows ∧ d.id = id) deps
        (row.dependencies t)) F := by
  refine Hoare.Triple.pre (Hoare.Triple.mapM _ (fun done deps w => Keeps w₀ w ∧
    List.Forall₂ (fun d id => d ∈ w₀.conn.dependencies.rows ∧ d.id = id) deps done)
    fun done id rest deps _ => Hoare.Triple.of_and fun h => ?_) fun w hw => ⟨hw, .nil⟩
  refine Hoare.Triple.post (getDependencyById_triple fun _ => hF) fun d w hw => ⟨hw.1, ?_⟩
  exact List.rel_append h (.cons ⟨Rows.mem_of_find hw.2, Rows.key_of_find hw.2⟩ .nil)

/-- The current rows match what the ids of the version refer to. -/
theorem currentDeps_matches (hw₀ : w₀.Inv) {F : Panic → Prop}
    (hF : F (.database "Error getting dep by id")) {t : DependencyType} {row : Version}
    {new : List (String × Spec)}
    (h : List.Forall₂ (fun id dep => ∃ d ∈ w₀.conn.dependencies.rows, d.id = id ∧ RowMatches d dep)
      (row.dependencies t) new) :
    Hoare.Triple (Keeps w₀) (currentDeps t row)
      (fun deps w => Keeps w₀ w ∧ List.Forall₂ RowMatches deps new) F := by
  refine (currentDeps_found hF t row).post fun deps w hw => ⟨hw.1, ?_⟩
  refine forall₂_common (fun d id dep hd hdep => ?_) hw.2 h.flip
  obtain ⟨d', hd', hid', hmatches⟩ := hdep
  have hsame : d = d' := List.inj_on_of_nodup_map hw₀.deps.identity.nodup hd.1 hd'
    (hd.2.trans hid'.symm)
  exact hsame ▸ hmatches

/-- An update whose dependencies are those that the version refers to. -/
theorem updateVersion_passes (hC : C.Lawful) (hw₀ : w₀.Inv) {name : String} {version : Semver}
    {data : VersionOnlyPackument} {packageId : ℤ} {row : Version}
    (hid : packageIdOf w₀.conn name = some packageId)
    (hfind : Rows.find versionKey w₀.conn.versions.rows (packageId, version) = some row)
    (hdeps : ∀ t, List.Forall₂ (fun id dep => ∃ d ∈ w₀.conn.dependencies.rows, d.id = id ∧
      RowMatches d dep) (row.dependencies t) (dependenciesOf data t)) (seq diffEntryId : ℤ) :
    Hoare.Triple (Keeps w₀) (updateVersion name version data seq diffEntryId) (fun _ _ => True)
      (· ∉ dependencyChanged) := by
  have hversion : versionIdOf w₀.conn (packageId, version) = some row.id := by
    rw [versionIdOf, hfind, Option.map_some]
  have hdep : Panic.database "Error getting dep by id" ∉ dependencyChanged := by decide
  refine Hoare.Triple.bind (getPackageIdByName_triple hC fun _ => by decide)
    fun packageId' => Hoare.Triple.of_and fun hid' => ?_
  cases hid.symm.trans hid'
  refine Hoare.Triple.bind (getVersionIdBySemver_triple hC fun _ => by decide)
    fun versionId => Hoare.Triple.of_and fun hversion' => ?_
  cases hversion.symm.trans hversion'
  refine Hoare.Triple.bind (getVersionById_triple fun _ => by decide)
    fun row' => Hoare.Triple.of_and fun hrow' => ?_
  cases (Rows.find_of_mem hw₀.versions.nodup (Rows.mem_of_find hfind)).symm.trans hrow'
  refine Hoare.Triple.bind (currentDeps_matches hw₀ hdep (hdeps .prod))
    fun prod => Hoare.Triple.of_and fun hprod => ?_
  refine Hoare.Triple.bind (currentDeps_matches hw₀ hdep (hdeps .dev))
    fun dev => Hoare.Triple.of_and fun hdev => ?_
  refine Hoare.Triple.bind (currentDeps_matches hw₀ hdep (hdeps .peer))
    fun peer => Hoare.Triple.of_and fun hpeer => ?_
  refine Hoare.Triple.bind (currentDeps_matches hw₀ hdep (hdeps .optional))
    fun optional => Hoare.Triple.of_and fun hoptional => ?_
  refine Hoare.Triple.bind (assertDepsEq_passes hprod) fun _ => ?_
  refine Hoare.Triple.bind (assertDepsEq_passes hdev) fun _ => ?_
  refine Hoare.Triple.bind (assertDepsEq_passes hpeer) fun _ => ?_
  refine Hoare.Triple.bind (assertDepsEq_passes hoptional) fun _ => ?_
  -- none of the panics from here on is about the dependencies
  refine Hoare.Triple.pre (P := fun _ => True) ?_ fun _ _ => trivial
  refine Hoare.Triple.bind (guardOr_fails (by decide) _) fun _ => ?_
  refine Hoare.Triple.bind (assertRepoEq_fails _ _ (by decide)) fun _ => ?_
  have hmark (t : DependencyType) (deps : List Dependency) :=
    insertMarked_fails (C := C) .markAsAdd t deps (F := (· ∉ dependencyChanged)) (by decide)
      (by decide) (by decide)
  have htail : Hoare.Triple (fun _ => True)
      (if row.extraMetadata != Value.object data.extraMetadata.toList then
        query (Versions.setVersionExtraMetadata row.id (.object data.extraMetadata.toList))
      else pure () : Run C Unit) (fun _ _ => True) (· ∉ dependencyChanged) := by
    split_ifs
    · exact query_fails (setVersionExtraMetadata_fails _ _ (by decide))
    · exact Hoare.Triple.pure fun _ _ => trivial
  dsimp only
  by_cases hstate : row.currentVersionStateType ≠ .normal
  · rw [if_pos hstate]
    refine Hoare.Triple.bind (guardOr_fails (by decide) _) fun _ => ?_
    refine Hoare.Triple.bind (hmark _ _) fun _ => ?_
    refine Hoare.Triple.bind (hmark _ _) fun _ => ?_
    refine Hoare.Triple.bind (hmark _ _) fun _ => ?_
    refine Hoare.Triple.bind (hmark _ _) fun _ => ?_
    exact Hoare.Triple.bind (query_fails (setState_fails _ _ _ _ (by decide))) fun _ => htail
  · rw [if_neg hstate]
    exact htail

end Update

section Run

variable {P : DiffLogBuilder.Parsers} {sha256 : String → String} {entries : List DiffLogEntry}
  {w : World C}

/-- Where the dependencies are kept apart, the row with the key of one has its name and spec. -/
theorem rowMatches_of_key {D : Digests} (hD : D = ⟨sha256, P.display⟩)
    (hsha : Function.Injective sha256) {d : Dependency} {dep dep' : String × Spec}
    (hrow : IsRowOf D dep d.toNewDependency) (hdigest : digest d = keyOf D dep')
    (hapart : KeptApart D dep dep')
    (hdisplay : P.display dep.2.raw = P.display dep'.2.raw → (dep.2.raw == dep'.2.raw) = true)
    (hspec : P.deserializeSpec dep.2.raw = some dep.2)
    (hspec' : P.deserializeSpec dep'.2.raw = some dep'.2) : RowMatches d dep' := by
  subst hD
  obtain ⟨hname, htext⟩ := hapart.of_text (hsha (hrow.digest.symm.trans hdigest))
  have hraw := hdisplay htext
  refine ⟨hrow.name.trans hname, ?_, hrow.parsed.trans ?_⟩
  · rw [hrow.raw]
    exact hraw
  · exact parsed_eq_of_deserializeSpec hspec hspec' htext hraw

variable (hsha : Function.Injective sha256) (hD : E.digests = ⟨sha256, P.display⟩)
  (hspec : ∀ dep, CreatedDep entries dep → P.deserializeSpec dep.2.raw = some dep.2)
  (hdisplay : ∀ dep dep', CreatedDep entries dep → CreatedDep entries dep' →
    P.display dep.2.raw = P.display dep'.2.raw → (dep.2.raw == dep'.2.raw) = true)
  (hapart : ∀ dep dep', CreatedDep entries dep → CreatedDep entries dep' →
    KeptApart E.digests dep dep')

include hsha hD hspec hdisplay hapart

theorem Stored.refersRight (h : Stored E entries w) : RefersRight entries w.conn := by
  intro e he v data hinstr
  obtain ⟨packageId, row, hid, hfind, hdeps⟩ := h.versions e he v data hinstr
  refine ⟨packageId, row, hid, hfind, fun t => ?_⟩
  have hcreated : ∀ dep ∈ dependenciesOf data t, CreatedDep entries dep := fun dep hdep =>
    ⟨e, he, v, data, hinstr, t, hdep⟩
  rw [List.forall₂_iff_zip]
  refine ⟨(hdeps t).length_eq, fun {id dep'} hmem => ?_⟩
  have hdep' := hcreated dep' (List.of_mem_zip hmem).2
  obtain ⟨d, hd, hdid, hdigest⟩ := List.forall₂_zip (hdeps t) hmem
  obtain ⟨dep, hdep, hrow⟩ := h.rows d hd
  exact ⟨d, hd, hdid, rowMatches_of_key hD hsha hrow hdigest (hapart dep dep' hdep hdep')
    (hdisplay dep dep' hdep hdep') (hspec dep hdep) (hspec dep' hdep')⟩

theorem Stored.updatesPass (hC : C.Lawful) (h : Stored E entries w) : UpdatesPass E entries w := by
  intro e he v data hinstr id seq data' hdata p hp
  obtain ⟨packageId, row, hid, hfind, hdeps⟩ :=
    h.refersRight E hsha hD hspec hdisplay hapart e he v data hinstr
  exact (updateVersion_passes hC h.inv hid hfind (fun t => (hdata t).symm ▸ hdeps t) seq id).of_error
    h.inv.keeps hp

end Run

section Samples

/-- Natural numbers as they are printed. -/
def numberText : Value → String
  | .number (.posInt n) => Nat.repr n
  | _ => ""

def numberParsers : DiffLogBuilder.Parsers :=
  { DiffLogBuilder.sampleParsers with display := numberText }

def numberSpec (n : ℕ) : Spec where
  raw := .number (.posInt n)
  parsed := .invalid ("spec must be a string, received: " ++ Nat.repr n)

def numberEnv : Env := { sampleEnv with digests := ⟨id, numberText⟩ }

/-- A package with two versions, each with one dependency. -/
def numberEntries (a b : String × Spec) : List DiffLogEntry :=
  [⟨1, 1, "p", .createPackage .deleted⟩,
    ⟨2, 1, "p", .createVersion ⟨1, 0, 0, [], []⟩ { sampleVersion with prodDependencies := [a] }⟩,
    ⟨3, 1, "p", .createVersion ⟨2, 0, 0, [], []⟩ { sampleVersion with prodDependencies := [b] }⟩]

theorem createdDep_numberEntries {a b dep : String × Spec} (h : CreatedDep (numberEntries a b) dep) :
    dep = a ∨ dep = b := by
  obtain ⟨e, he, v, data, hinstr, t, hdep⟩ := h
  simp only [numberEntries, List.mem_cons, List.not_mem_nil, or_false] at he
  rcases he with rfl | rfl | rfl
  · cases hinstr
  · cases hinstr
    cases t <;> simp_all [dependenciesOf, sampleVersion]
  · cases hinstr
    cases t <;> simp_all [dependenciesOf, sampleVersion]

theorem Replay.of_processEntries {E : Env} {done entries : List DiffLogEntry} {w w' : World C}
    (h : Replay E done w) (hrun : processEntries E entries w = .ok ((), w')) :
    Replay E (done ++ entries) w' := by
  induction entries generalizing done w with
  | nil =>
    cases hrun
    rwa [List.append_nil]
  | cons e entries ih =>
    rw [processEntries_cons, Hoare.bind_apply] at hrun
    cases hstep : processEntry E e w with
    | error p =>
      rw [hstep] at hrun
      cases hrun
    | ok r =>
      rw [hstep] at hrun
      rw [← List.singleton_append, ← List.append_assoc]
      exact ih (h.entry hstep) hrun

/-- The names in the rows of dependencies at the end. -/
def numberNames (C : LruCaches) (a b : String × Spec) : Option (List String) :=
  (processEntries numberEnv (numberEntries a b) (uncached C .empty)).toOption.map
    fun r => r.2.conn.dependencies.rows.map (·.dstPackageName)

end Samples

end NpmFollower.RelationalDbBuilder
