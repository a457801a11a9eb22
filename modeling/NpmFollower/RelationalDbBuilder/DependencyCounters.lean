import NpmFollower.RelationalDbBuilder.AccessorInvariant

/-! # Counters and live versions

The counter of a row is what the accessor sees of it, be it cached or stored. A
call for dependencies adds its changes to the counters of the rows whose ids it
returns, and leaves all others.
-/

namespace NpmFollower.RelationalDbBuilder

open Std PostgresDb RelationalDbAccessor

variable {C : LruCaches}

/-- How often the arrays of the live versions have the id. -/
def live (db : Db) (t : DependencyType) (i : ℤ) : ℕ :=
  ((db.versions.rows.filter fun v => v.currentVersionStateType = .normal).flatMap
    (·.dependencies t)).count i

namespace World

variable (w : World C)

def counter (t : DependencyType) (i : ℤ) : ℤ :=
  match Rows.find Dependency.id w.conn.dependencies.rows i with
  | some d => ((w.depState.view (digest d)).getD .zero).get t
  | none => 0

/-- By how much the counter of a row falls short of the live versions. -/
def deficit (t : DependencyType) (i : ℤ) : ℤ := live w.conn t i - w.counter t i

variable {w} {t : DependencyType} {i : ℤ}

theorem counter_of_mem (h : w.DepsInv) {d : Dependency} (hd : d ∈ w.conn.dependencies.rows) :
    w.counter t d.id = ((w.depState.view (digest d)).getD .zero).get t := by
  rw [counter, Rows.find_of_mem h.identity.nodup hd]

theorem counter_of_fresh (h : ∀ d ∈ w.conn.dependencies.rows, d.id ≠ i) : w.counter t i = 0 := by
  rw [counter, Rows.find_eq_none_iff.mpr h]

theorem counter_congr {w' : World C} (h : w.DepsInv) (h' : w'.DepsInv)
    (hview : w'.depState.view = w.depState.view)
    (hrows : w'.conn.dependencies.rows.map (fun d => (d.id, digest d)) =
      w.conn.dependencies.rows.map (fun d => (d.id, digest d))) : w'.counter t i = w.counter t i := by
  by_cases hrow : ∃ d ∈ w.conn.dependencies.rows, d.id = i
  · obtain ⟨d, hd, rfl⟩ := hrow
    have hmem := List.mem_map_of_mem (f := fun d : Dependency => (d.id, digest d)) hd
    rw [← hrows] at hmem
    obtain ⟨d', hd', heq⟩ := List.mem_map.mp hmem
    obtain ⟨hid, hdigest⟩ := Prod.mk.inj heq
    rw [counter_of_mem h hd, ← hid, counter_of_mem h' hd', hdigest, hview]
  · push Not at hrow
    rw [counter_of_fresh hrow, counter_of_fresh fun d hd hid => ?_]
    have hmem := List.mem_map_of_mem (f := fun d : Dependency => (d.id, digest d)) hd
    rw [hrows] at hmem
    obtain ⟨d', hd', heq⟩ := List.mem_map.mp hmem
    exact hrow d' hd' ((Prod.mk.inj heq).1.trans hid)

/-- A call for a dependency changes the counters of the row with the id that it returns. -/
theorem counter_depStep {w' : World C} {dep : NewDependency} {id : ℤ} (h : w.DepsInv)
    (hstep : w.DepStep dep id w') :
    w'.counter t i = w.counter t i + if i = id then dep.counts.get t else 0 := by
  obtain ⟨r, hr, hdigest, hid⟩ := hstep.found
  split_ifs with hi
  · subst hi
    rw [← hid, counter_of_mem hstep.inv hr, hdigest, hstep.view, Function.update_self,
      Option.getD_some, nextCounts, FreqCounts.get_sum]
    congr 1
    by_cases hstored : (w.depState.store dep.md5digestWithVersion).isSome
    · have hrows := hstep.rows
      rw [if_pos hstored, List.append_nil] at hrows
      obtain ⟨d, hd, hdigest', hid'⟩ := exists_row_of_fixed
        (hrows.symm.trans (List.append_nil _).symm) hr
      rw [← hid', counter_of_mem h hd, hdigest', hdigest]
    · have hrows := hstep.rows
      rw [if_neg hstored] at hrows
      have hview : w.depState.view dep.md5digestWithVersion = none := by
        rw [← Option.not_isSome_iff_eq_none, h.coherent.view_isSome]
        exact hstored
      have hlt := lt_of_identity_append hstep.inv.identity hrows
      rw [hview, Option.getD_none, FreqCounts.get_zero, hid]
      exact (counter_of_fresh fun d hd => (hlt d hd).ne).symm
  · rw [add_zero]
    by_cases hrow : ∃ d ∈ w.conn.dependencies.rows, d.id = i
    · obtain ⟨d, hd, rfl⟩ := hrow
      obtain ⟨d', hd', hdigest', hid'⟩ := exists_row_of_fixed hstep.rows hd
      have hne : digest d ≠ dep.md5digestWithVersion := by
        intro heq
        have hsame := List.inj_on_of_nodup_map hstep.inv.digests hd' hr
          (hdigest'.trans (heq.trans hdigest.symm))
        exact hi (hid'.symm.trans ((congrArg _ hsame).trans hid))
      rw [counter_of_mem h hd, ← hid', counter_of_mem hstep.inv hd', hdigest', hstep.view,
        Function.update_of_ne hne]
    · push Not at hrow
      rw [counter_of_fresh hrow, counter_of_fresh fun d' hd' hid' => ?_]
      have hmem := List.mem_map_of_mem (f := Dependency.fixed) hd'
      rw [hstep.rows] at hmem
      rcases List.mem_append.mp hmem with hmem | hmem
      · obtain ⟨d, hd, heq⟩ := List.mem_map.mp hmem
        have hid := congrArg Dependency.id heq
        exact hrow d hd (hid.trans hid')
      · split_ifs at hmem
        · cases hmem
        · have hid := congrArg Dependency.id (List.mem_singleton.mp hmem)
          exact hi (hid'.symm.trans hid)

end World

theorem World.Inv.depStep {w w' : World C} {dep : NewDependency} {id : ℤ} (h : w.Inv)
    (hstep : w.DepStep dep id w') : w'.Inv := by
  have hrows := hstep.rows
  have hinv := hstep.inv
  obtain ⟨cache, needFlush, deps, rfl⟩ := hstep.frame
  exact
    { deps := hinv
      packages := h.packages
      versions := h.versions
      packageIds := h.packageIds
      packageData := h.packageData
      versionIds := h.versionIds
      versionDeps v hv t i hi := by
        obtain ⟨d, hd, rfl⟩ := h.versionDeps v hv t i hi
        obtain ⟨d', hd', -, hid⟩ := exists_row_of_fixed hrows hd
        exact ⟨d', hd', hid⟩ }

/-- The panics on missing rows happen only under a condition. -/
def MissingOnly (p : Prop) (e : Panic) : Prop := e.isMissing → p

/-- The changes to a counter by calls with the ids that they have returned. -/
def changes (deps : List NewDependency) (ids : List ℤ) (t : DependencyType) (i : ℤ) : ℤ :=
  ((deps.zip ids).map fun e => if i = e.2 then e.1.counts.get t else 0).sum

/-- The counters have changed, and nothing that the tables are used for besides. -/
structure Counted (w₀ : World C) (δ : DependencyType → ℤ → ℤ) (w : World C) : Prop where
  inv : w.Inv
  packages : w.conn.packages = w₀.conn.packages
  versions : w.conn.versions = w₀.conn.versions
  rows : ∀ d ∈ w₀.conn.dependencies.rows,
    ∃ d' ∈ w.conn.dependencies.rows, digest d' = digest d ∧ d'.id = d.id
  counter : ∀ t i, w.counter t i = w₀.counter t i + δ t i

/-- The calls for a list of dependencies have returned these ids. -/
structure DepsApplied (w₀ : World C) (deps : List NewDependency) (ids : List ℤ) (w : World C) : Prop
    extends Counted w₀ (changes deps ids) w where
  length : deps.length = ids.length
  found : ∀ e ∈ deps.zip ids,
    ∃ d ∈ w.conn.dependencies.rows, digest d = e.1.md5digestWithVersion ∧ d.id = e.2

theorem Keeps.counted {w₀ w : World C} (h : Keeps w₀ w) (hw₀ : w₀.Inv) :
    Counted w₀ (fun _ _ => 0) w where
  inv := h.inv
  packages := by rw [h.conn]
  versions := by rw [h.conn]
  rows d hd := ⟨d, by rwa [h.conn], rfl, rfl⟩
  counter t i := by
    rw [World.counter_congr hw₀.deps h.inv.deps (by rw [h.depState]) (by rw [h.conn]), add_zero]

theorem Counted.trans {w₀ w₁ w₂ : World C} {δ δ' : DependencyType → ℤ → ℤ} (h : Counted w₀ δ w₁)
    (h' : Counted w₁ δ' w₂) : Counted w₀ (fun t i => δ t i + δ' t i) w₂ where
  inv := h'.inv
  packages := h'.packages.trans h.packages
  versions := h'.versions.trans h.versions
  rows d hd := by
    obtain ⟨d₁, hd₁, hdigest₁, hid₁⟩ := h.rows d hd
    obtain ⟨d₂, hd₂, hdigest₂, hid₂⟩ := h'.rows d₁ hd₁
    exact ⟨d₂, hd₂, hdigest₂.trans hdigest₁, hid₂.trans hid₁⟩
  counter t i := by rw [h'.counter, h.counter, add_assoc]

namespace DepsApplied

variable {w₀ w : World C} {deps : List NewDependency} {ids : List ℤ}

theorem nil (h : Keeps w₀ w) (hw₀ : w₀.Inv) : DepsApplied w₀ [] [] w where
  toCounted := h.counted hw₀
  length := rfl
  found e he := by cases he

theorem append (h : DepsApplied w₀ deps ids w) {dep : NewDependency} {id : ℤ} {w' : World C}
    (hstep : w.DepStep dep id w') : DepsApplied w₀ (deps ++ [dep]) (ids ++ [id]) w' := by
  have hzip : (deps ++ [dep]).zip (ids ++ [id]) = deps.zip ids ++ [(dep, id)] :=
    List.zip_append h.length
  have hkept {d : Dependency} (hd : d ∈ w.conn.dependencies.rows) :=
    exists_row_of_fixed hstep.rows hd
  obtain ⟨cache, needFlush, table, hframe⟩ := hstep.frame
  refine ⟨⟨h.inv.depStep hstep, ?_, ?_, fun d hd => ?_, fun t i => ?_⟩, by simp [h.length],
    fun e he => ?_⟩
  · rw [hframe]
    exact h.packages
  · rw [hframe]
    exact h.versions
  · obtain ⟨d₁, hd₁, hdigest₁, hid₁⟩ := h.rows d hd
    obtain ⟨d₂, hd₂, hdigest₂, hid₂⟩ := hkept hd₁
    exact ⟨d₂, hd₂, hdigest₂.trans hdigest₁, hid₂.trans hid₁⟩
  · rw [World.counter_depStep h.inv.deps hstep, h.counter, changes, changes, hzip, List.map_append,
      List.sum_append, List.map_singleton, List.sum_singleton, add_assoc]
  · rw [hzip] at he
    rcases List.mem_append.mp he with he | he
    · obtain ⟨d₁, hd₁, hdigest₁, hid₁⟩ := h.found e he
      obtain ⟨d₂, hd₂, hdigest₂, hid₂⟩ := hkept hd₁
      exact ⟨d₂, hd₂, hdigest₂.trans hdigest₁, hid₂.trans hid₁⟩
    · cases List.mem_singleton.mp he
      exact hstep.found

/-- The calls for rows of the table return the ids of these rows. -/
theorem ids_eq {ds : List Dependency} {mark : Dependency → NewDependency}
    (hmark : ∀ d, (mark d).md5digestWithVersion = digest d) (h : DepsApplied w₀ (ds.map mark) ids w)
    (hds : ∀ d ∈ ds, ∃ d' ∈ w₀.conn.dependencies.rows, digest d' = digest d ∧ d'.id = d.id) :
    ids = ds.map (·.id) := by
  have hlength : ids.length = ds.length := by simpa using h.length.symm
  refine List.ext_getElem (by simpa using hlength) fun k hk hk' => ?_
  rw [List.getElem_map]
  have hkd : k < ds.length := by simpa using hk'
  have hzip : (mark ds[k], ids[k]) ∈ (ds.map mark).zip ids := by
    refine List.mem_iff_getElem.mpr ⟨k, by simpa using ⟨hkd, hk⟩, by simp⟩
  obtain ⟨d₁, hd₁, hdigest₁, hid₁⟩ := h.found _ hzip
  obtain ⟨d, hd, hdigest, hid⟩ := hds _ (List.getElem_mem hkd)
  obtain ⟨d₂, hd₂, hdigest₂, hid₂⟩ := h.rows d hd
  have hsame : d₁ = d₂ := List.inj_on_of_nodup_map h.inv.deps.digests hd₁ hd₂
    (by rw [hdigest₁, hdigest₂, hdigest, hmark])
  exact hid₁.symm.trans ((congrArg _ hsame).trans (hid₂.trans hid))

end DepsApplied

section Calls

variable (hC : C.dependencyStates.Lawful) (w₀ : World C) {p : Prop}

include hC

theorem insertOrIncDependency_triple (deps : List NewDependency) (ids : List ℤ)
    (dep : NewDependency) :
    Hoare.Triple (DepsApplied w₀ deps ids) (insertOrIncDependency dep)
      (fun id => DepsApplied w₀ (deps ++ [dep]) (ids ++ [id])) (MissingOnly p) := by
  intro w hw
  have hspec := insertOrIncDependency_spec hC hw.inv.deps dep
  cases hrun : insertOrIncDependency dep w with
  | ok r =>
    rw [hrun] at hspec
    exact hw.append hspec
  | error e =>
    rw [hrun] at hspec
    intro hmissing
    cases e <;> simp [Panic.isOther, Panic.isMissing] at hspec hmissing

theorem insertOrIncDependencies_triple (deps : List NewDependency) (ids : List ℤ)
    (more : List NewDependency) :
    Hoare.Triple (DepsApplied w₀ deps ids) (insertOrIncDependencies more)
      (fun ids' => DepsApplied w₀ (deps ++ more) (ids ++ ids')) (MissingOnly p) := by
  refine Hoare.Triple.pre (Hoare.Triple.mapM more
    (fun done out => DepsApplied w₀ (deps ++ done) (ids ++ out)) fun done dep rest out _ => ?_) ?_
  · have hcall := insertOrIncDependency_triple hC w₀ (p := p) (deps ++ done) (ids ++ out) dep
    simpa only [List.append_assoc] using hcall
  · intro w hw
    simpa only [List.append_nil] using hw

end Calls

section Marks

/-- The changes that marked rows make to the counters. -/
def markChanges (sign : ℤ) (depType : DependencyType) (ids : List ℤ) (t : DependencyType) (i : ℤ) : ℤ :=
  if depType = t then sign * ids.count i else 0

theorem changes_map (sign : ℤ) (depType : DependencyType) (ds : List Dependency)
    {mark : Dependency → NewDependency} (hmark : ∀ d, (mark d).counts = .single depType sign)
    (t : DependencyType) (i : ℤ) :
    changes (ds.map mark) (ds.map (·.id)) t i = markChanges sign depType (ds.map (·.id)) t i := by
  induction ds with
  | nil => simp [changes, markChanges]
  | cons d ds ih =>
    rw [changes, List.map_cons, List.map_cons, List.zip_cons_cons, List.map_cons, List.sum_cons]
    rw [changes] at ih
    rw [ih, hmark, FreqCounts.get_single, markChanges, markChanges, List.count_cons]
    by_cases hi : i = d.id
    · by_cases ht : depType = t
      · simp [hi, ht]
        ring
      · simp [hi, ht]
    · have hi' : ¬d.id = i := fun h => hi h.symm
      simp [hi, hi']

open EntryProcessor in
/-- The calls for marked rows change their counters by the sign of the mark. -/
theorem insertMarked_triple (hC : C.dependencyStates.Lawful) {w₀ : World C} {p : Prop}
    (δ : DependencyType → ℤ → ℤ) {mark : Dependency → DependencyType → Dependency} {sign : ℤ}
    (depType : DependencyType) {ds : List Dependency}
    (hdigest : ∀ d, digest (mark d depType) = digest d)
    (hcounts : ∀ d, (mark d depType).counts = .single depType sign)
    (hds : ∀ d ∈ ds, d ∈ w₀.conn.dependencies.rows) :
    Hoare.Triple (Counted w₀ δ) (insertOrIncDependencies (markAll mark depType ds))
      (fun _ => Counted w₀ fun t i => δ t i + markChanges sign depType (ds.map (·.id)) t i)
      (MissingOnly p) := by
  refine Hoare.Triple.of_forall fun w₁ hw₁ => ?_
  have hcall := insertOrIncDependencies_triple hC w₁ (p := p) [] [] (markAll mark depType ds)
  have hstart (w : World C) (hw : w = w₁) : DepsApplied w₁ [] [] w := by
    rw [hw]
    exact .nil hw₁.inv.keeps hw₁.inv
  refine (hcall.pre hstart).post fun ids w hw => ?_
  rw [List.nil_append, List.nil_append] at hw
  have hids := hw.ids_eq hdigest fun d hd => hw₁.rows d (hds d hd)
  have hcounted := hw₁.trans hw.toCounted
  have hchanges := changes_map sign depType ds fun d =>
    show (mark d depType).asNew.counts = _ from hcounts d
  rw [hids, markAll] at hcounted
  simpa only [hchanges] using hcounted

end Marks

end NpmFollower.RelationalDbBuilder
